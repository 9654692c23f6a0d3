import Stencil.Proofs.Statement.Listing
set_option autoImplicit false

namespace Stencil

namespace Statement

/-- The statements of one list and then those of another, with a text after a text made one. -/
def joined (first second : List Statement) : List Statement :=
  match first.getLast?, second with
  | some (.text a), .text b :: rest => first.dropLast ++ .text (a ++ b) :: rest
  | _, _ => first ++ second

theorem joined_append {second : List Statement} (hs : second ≠ []) (first more : List Statement) :
    joined first (second ++ more) = joined first second ++ more := by
  obtain ⟨s, rest, rfl⟩ := List.exists_cons_of_ne_nil hs
  unfold joined
  rw [List.cons_append]
  split <;> simp_all

theorem joined_of_ne_text {first : List Statement} (hf : ∀ a, first.getLast? ≠ some (.text a))
    (second : List Statement) : joined first second = first ++ second := by
  unfold joined
  split
  · rename_i a b rest hlast
    exact absurd hlast (hf a)
  · rfl

def withText (body : List Statement) (literal : String) : List Statement :=
  match body with
  | .text before :: rest => .text (before ++ literal) :: rest
  | body => .text literal :: body

theorem withText_of_ne_text {s : Statement} (hs : ∀ a, s ≠ .text a) (rest : List Statement)
    (literal : String) : withText (s :: rest) literal = .text literal :: s :: rest := by
  cases s with
  | text a => exact absurd rfl (hs a)
  | value | assign | conditional | loop | range | block | inclusion => rfl

theorem withText_withText (body : List Statement) (a b : String) :
    withText (withText body a) b = withText body (a ++ b) := by
  cases body with
  | nil => rfl
  | cons s rest =>
    cases s with
    | text before => simp [withText, String.append_assoc]
    | value | assign | conditional | loop | range | block | inclusion => rfl

theorem reverse_withText (body : List Statement) (b : String) :
    (withText body b).reverse = joined body.reverse [.text b] := by
  cases body with
  | nil => rfl
  | cons s rest =>
    by_cases hs : ∃ a, s = .text a
    · obtain ⟨a, rfl⟩ := hs
      simp [withText, joined]
    · have hs : ∀ a, s ≠ .text a := fun a h => hs ⟨a, h⟩
      rw [withText_of_ne_text hs, joined_of_ne_text (by simpa using hs)]
      simp

def onto (base : List Statement) : List Statement → List Statement
  | [] => base
  | [.text b] => withText base b
  | s :: body => s :: onto base body

theorem onto_cons {s : Statement} (hs : ∀ a, s ≠ .text a) (base body : List Statement) :
    onto base (s :: body) = s :: onto base body := by
  rw [onto]
  rintro b rfl
  exact absurd rfl (hs b)

theorem onto_cons_cons (base : List Statement) (s t : Statement) (body : List Statement) :
    onto base (s :: t :: body) = s :: onto base (t :: body) := by
  rw [onto]
  simp

theorem onto_withText (base body : List Statement) (b : String) :
    onto base (withText body b) = withText (onto base body) b := by
  cases body with
  | nil => rfl
  | cons s rest =>
    by_cases hs : ∃ a, s = .text a
    · obtain ⟨a, rfl⟩ := hs
      cases rest with
      | nil => exact (withText_withText base a b).symm
      | cons t rest =>
        rw [withText, onto_cons_cons, onto_cons_cons]
        rfl
    · have hs : ∀ a, s ≠ .text a := fun a h => hs ⟨a, h⟩
      rw [withText_of_ne_text hs, onto_cons_cons, onto_cons hs, withText_of_ne_text hs]

theorem reverse_onto (base body : List Statement) :
    (onto base body).reverse = joined base.reverse body.reverse := by
  induction body with
  | nil => simp [onto, joined]
  | cons s body ih =>
    cases body with
    | nil =>
      by_cases hs : ∃ b, s = .text b
      · obtain ⟨b, rfl⟩ := hs
        exact reverse_withText base b
      · have hs : ∀ b, s ≠ .text b := fun b h => hs ⟨b, h⟩
        have hrest : joined base.reverse [s] = base.reverse ++ [s] := by
          unfold joined
          split
          · rename_i a b rest _ hlist
            exact absurd (List.cons.inj hlist).1 (hs b)
          · rfl
        rw [onto_cons hs, List.reverse_singleton, hrest, List.reverse_cons]
        rfl
    | cons t body =>
      have hne : (t :: body).reverse ≠ [] := by simp
      rw [onto_cons_cons, List.reverse_cons, ih, ← joined_append hne]
      simp

end Statement

namespace Draft

theorem appendText_eq (d : Draft) (literal : String) :
    d.appendText literal = { d with body := Statement.withText d.body literal } := by
  obtain ⟨frames, body, template⟩ := d
  cases body with
  | nil => rfl
  | cons s rest => cases s <;> rfl

/-- The open tags and the body in them, with the outermost body on top of another one. -/
def lift (base : List Statement) : List Frame → List Statement → List Frame × List Statement
  | [], body => ([], Statement.onto base body)
  | f :: frames, body =>
    let below := lift base frames f.outer
    (⟨f.opening, below.2⟩ :: below.1, body)

def onto (base d : Draft) : Draft :=
  ⟨(lift base.body d.frames d.body).1, (lift base.body d.frames d.body).2, base.template⟩

theorem lift_cons {s : Statement} (hs : ∀ a, s ≠ .text a) (base : List Statement)
    (frames : List Frame) (body : List Statement) : lift base frames (s :: body)
      = ((lift base frames body).1, s :: (lift base frames body).2) := by
  cases frames with
  | nil => rw [lift, lift, Statement.onto_cons hs]
  | cons f frames => rfl

theorem lift_withText (base : List Statement) (frames : List Frame) (body : List Statement)
    (b : String) : lift base frames (Statement.withText body b)
      = ((lift base frames body).1, Statement.withText (lift base frames body).2 b) := by
  cases frames with
  | nil => rw [lift, lift, Statement.onto_withText]
  | cons f frames => rfl

/-- What one item does, it does as well after other statements. -/
theorem Step.onto {d e : Draft} {item : Item} (h : d.Step item e) (hx : item.extend? = none)
    (base : Draft) : (base.onto d).Step item (base.onto e) := by
  cases h with
  | text literal =>
    have heq : base.onto (d.appendText literal) = (base.onto d).appendText literal := by
      simp [Draft.onto, appendText_eq, lift_withText]
    rw [heq]
    exact .text _ literal
  | @statement _ s hs =>
    have heq : base.onto (d.append s) = (base.onto d).append s := by
      simp [Draft.onto, append, lift_cons (ne_text_of_statement? hs)]
    rw [heq]
    exact .statement _ hs
  | opens ho => exact .opens (base.onto d) ho
  | arm ha hf =>
    obtain ⟨_, body, template⟩ := d
    cases hf
    exact .arm ha rfl
  | @close frame frames s hf hs =>
    obtain ⟨_, body, template⟩ := d
    cases hf
    -- the body of an open tag begins above the other draft, so it is closed as it is
    have hd : (base.onto ⟨frame :: frames, body, template⟩).frames
        = ⟨frame.opening, (lift base.body frames frame.outer).2⟩ ::
          (lift base.body frames frame.outer).1 := rfl
    have hstep := Step.close hd hs
    simpa [Draft.onto, lift_cons (ne_text_of_finish? hs)] using hstep
  | extend => simp [Item.extend?] at hx

theorem Steps.onto {d e : Draft} {items : List Item} (h : d.Steps items e)
    (hx : ∀ item ∈ items, item.extend? = none) (base : Draft) :
    (base.onto d).Steps items (base.onto e) := by
  induction h with
  | nil => exact .nil _
  | cons hd _ ih =>
    obtain ⟨hfirst, hmore⟩ := List.forall_mem_cons.1 hx
    exact .cons (hd.onto hfirst base) (ih hmore)

end Draft

end Stencil
