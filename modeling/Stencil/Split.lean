set_option autoImplicit false

namespace Stencil

/-- The parts between the separators; there is one more of them than separators. -/
def separate {α : Type} (p : α → Bool) : List α → List (List α)
  | [] => [[]]
  | a :: rest =>
    if p a then [] :: separate p rest
    else match separate p rest with
      | [] => [[a]]
      | part :: more => (a :: part) :: more

theorem length_separate {α : Type} (p : α → Bool) (s : List α) :
    (separate p s).length = s.countP p + 1 := by
  induction s with
  | nil => rfl
  | cons a rest ih =>
    by_cases h : p a = true
    · simp [separate, h, ih]
    · cases hs : separate p rest with
      | nil => simp [hs] at ih
      | cons part more => simpa [separate, h, hs] using ih

theorem mem_of_mem_separate {α : Type} {p : α → Bool} {s part : List α} {a : α}
    (hp : part ∈ separate p s) (ha : a ∈ part) : a ∈ s := by
  induction s generalizing part with
  | nil => simp_all [separate]
  | cons b rest ih =>
    rw [separate] at hp
    split at hp
    · cases hp with
      | head => simp at ha
      | tail _ hp => exact List.mem_cons_of_mem b (ih hp ha)
    · split at hp
      · rename_i hs
        have := length_separate p rest
        simp [hs] at this
      · rename_i first more hs
        cases hp with
        | head =>
          cases ha with
          | head => simp
          | tail _ ha => exact List.mem_cons_of_mem b (ih (by simp [hs]) ha)
        | tail _ hp =>
          have hp : part ∈ first :: more := List.mem_cons_of_mem first hp
          exact List.mem_cons_of_mem b (ih (hs ▸ hp) ha)

theorem exists_mem_separate {α : Type} {p : α → Bool} {s : List α} {a : α} (ha : a ∈ s)
    (hp : p a = false) : ∃ part ∈ separate p s, a ∈ part := by
  induction s with
  | nil => simp at ha
  | cons b rest ih =>
    rw [separate]
    obtain rfl | ha := List.mem_cons.1 ha
    · rw [hp]
      cases separate p rest <;> simp
    · obtain ⟨part, hpart, hmem⟩ := ih ha
      split
      · exact ⟨part, List.mem_cons_of_mem _ hpart, hmem⟩
      · cases hs : separate p rest with
        | nil => simp [hs] at hpart
        | cons first more =>
          rw [hs] at hpart
          obtain rfl | hpart := List.mem_cons.1 hpart
          · exact ⟨b :: part, by simp, by simp [hmem]⟩
          · exact ⟨part, by simp [hpart], hmem⟩

def breakAt? {α : Type} (p : α → Bool) : List α → Option (List α × α × List α)
  | [] => none
  | a :: rest =>
    if p a then some ([], a, rest)
    else (breakAt? p rest).map fun (before, b, after) => (a :: before, b, after)

theorem breakAt?_eq_some {α : Type} {p : α → Bool} {s before after : List α} {b : α}
    (h : breakAt? p s = some (before, b, after)) :
    s = before ++ b :: after ∧ p b = true ∧ ∀ a ∈ before, p a = false := by
  induction s generalizing before with
  | nil => simp [breakAt?] at h
  | cons a rest ih =>
    rw [breakAt?] at h
    split at h
    · rename_i ha
      simp only [Option.some.injEq, Prod.mk.injEq] at h
      obtain ⟨rfl, rfl, rfl⟩ := h
      exact ⟨rfl, ha, by simp⟩
    · rename_i ha
      obtain ⟨⟨s', b', t'⟩, hr, he⟩ := Option.map_eq_some_iff.1 h
      simp only [Prod.mk.injEq] at he
      obtain ⟨rfl, rfl, rfl⟩ := he
      obtain ⟨h1, h2, h3⟩ := ih hr
      refine ⟨by simp [h1], h2, ?_⟩
      intro x hx
      cases hx with
      | head => simpa using ha
      | tail _ hx => exact h3 x hx

end Stencil
