import Mathlib.Data.List.Basic
import Stencil.Proofs.Stops
import Stencil.Text.Line
set_option autoImplicit false

namespace Stencil.Text

/-- Line ends are found one by one, unless one of two characters stands across the seam. -/
theorem normalize_append_of_seam {s t : List Char} (h : '\r' ∈ s.getLast? → '\n' ∉ t.head?) :
    normalize (s ++ t) = normalize s ++ normalize t := by
  fun_induction normalize s with
  | case1 => rfl
  | case2 rest ih =>
    have hrest := ih fun hm => h (List.mem_getLast?_cons (List.mem_getLast?_cons hm))
    rw [List.cons_append, List.cons_append, normalize, hrest, List.cons_append]
  | case3 c rest hne ih =>
    have hrest := ih fun hm => h (List.mem_getLast?_cons hm)
    rw [List.cons_append, normalize, hrest, List.cons_append]
    -- a line feed after the carriage return would be in the first text or begin the second
    rintro more rfl hmore
    cases rest with
    | nil =>
      rw [List.nil_append] at hmore
      exact h rfl (by rw [hmore]; rfl)
    | cons d rest =>
      simp only [List.cons_append, List.cons.injEq] at hmore
      exact hne rest rfl (by rw [hmore.1])

theorem normalize_append {s : List Char} (hs : '\r' ∉ s.getLast?) (t : List Char) :
    normalize (s ++ t) = normalize s ++ normalize t :=
  normalize_append_of_seam fun hm => absurd hm hs

theorem normalize_append_of_head {t : List Char} (ht : '\n' ∉ t.head?) (s : List Char) :
    normalize (s ++ t) = normalize s ++ normalize t := normalize_append_of_seam fun _ => ht

theorem normalize_eq_nil {s : List Char} (h : normalize s = []) : s = [] := by
  fun_cases normalize s with
  | case1 => rfl
  | case2 rest => simp [normalize] at h
  | case3 c rest hne => simp [normalize] at h

theorem getLast?_normalize {s : List Char} {c : Char} (h : c ∈ (normalize s).getLast?) :
    c = '\n' ∨ c ∈ s.getLast? := by
  fun_induction normalize s with
  | case1 => simp at h
  | case2 rest ih =>
    obtain hr | ⟨d, hd⟩ := Option.eq_none_or_eq_some (normalize rest).getLast?
    · rw [List.getLast?_cons, hr] at h
      exact .inl (Option.mem_some_iff.1 h).symm
    · rw [List.getLast?_cons, hd] at h
      obtain rfl := Option.mem_some_iff.1 h
      obtain h | h := ih hd
      · exact .inl h
      · exact .inr (List.mem_getLast?_cons (List.mem_getLast?_cons h))
  | case3 d rest hne ih =>
    obtain hr | ⟨e, he⟩ := Option.eq_none_or_eq_some (normalize rest).getLast?
    · rw [List.getLast?_cons, hr] at h
      obtain rfl := normalize_eq_nil (List.getLast?_eq_none_iff.1 hr)
      obtain rfl := Option.mem_some_iff.1 h
      by_cases hd : d = '\r' <;> simp [hd]
    · rw [List.getLast?_cons, he] at h
      obtain rfl := Option.mem_some_iff.1 h
      exact (ih he).imp_right List.mem_getLast?_cons

theorem mem_normalize {s : List Char} {c : Char} (h : c ∈ normalize s) : c = '\n' ∨ c ∈ s := by
  fun_induction normalize s with
  | case1 => simp at h
  | case2 rest ih =>
    rcases List.mem_cons.1 h with h | h
    · exact .inl h
    · exact (ih h).imp_right fun hm => by simp [hm]
  | case3 d rest _ ih =>
    rcases List.mem_cons.1 h with rfl | h
    · split
      · exact .inl rfl
      · exact .inr (.head _)
    · exact (ih h).imp_right (List.mem_cons_of_mem d)

theorem Blanks.normalize {s : List Char} (h : Blanks s) : Blanks (normalize s) := by
  intro c hc
  obtain rfl | hc := mem_normalize hc
  · rfl
  · exact h c hc

theorem isBlank_head_normalize {s : List Char} (h : ∀ c ∈ s.head?, isBlank c = true) :
    ∀ c ∈ (Text.normalize s).head?, isBlank c = true := by
  fun_cases Text.normalize s with
  | case1 => exact h
  | case2 rest => simpa using (by decide : isBlank '\n' = true)
  | case3 c rest =>
    have hc : isBlank c = true := h c rfl
    intro d hd
    obtain rfl := Option.mem_some_iff.1 hd
    split
    · rfl
    · exact hc

theorem normalize_word {c : Char} {run : List Char} (hc : isBlank c = false)
    (hr : '\r' ∉ c :: run) (gap rest : List Char) :
    Text.normalize (gap ++ c :: run ++ rest)
      = Text.normalize gap ++ c :: run ++ Text.normalize rest := by
  have hhead : '\n' ∉ (c :: run ++ rest).head? := by
    rintro hm
    obtain rfl : c = '\n' := by simpa using hm
    simp [isBlank, blankRanges, inRanges] at hc
  have hlast : '\r' ∉ (c :: run).getLast? := fun hm => hr (List.mem_of_mem_getLast? hm)
  rw [List.append_assoc, normalize_append_of_head hhead, normalize_append hlast,
    normalize_of_not_mem hr, List.append_assoc]

theorem normalize_eq_append {s x y : List Char} (h : normalize s = x ++ y) :
    ∃ u v, s = u ++ v ∧ normalize u = x ∧ normalize v = y := by
  fun_induction normalize s generalizing x with
  | case1 =>
    obtain ⟨rfl, rfl⟩ := List.nil_eq_append_iff.1 h
    exact ⟨[], [], rfl, rfl, rfl⟩
  | case2 rest ih =>
    cases x with
    | nil => exact ⟨[], _, rfl, rfl, by simpa [normalize] using h⟩
    | cons d x =>
      simp only [List.cons_append, List.cons.injEq] at h
      obtain ⟨rfl, h⟩ := h
      obtain ⟨u, v, rfl, rfl, rfl⟩ := ih h
      exact ⟨'\r' :: '\n' :: u, v, rfl, by rw [normalize], rfl⟩
  | case3 c rest hne ih =>
    cases x with
    | nil => exact ⟨[], c :: rest, rfl, rfl, by rw [normalize]; exacts [h, hne]⟩
    | cons d x =>
      simp only [List.cons_append, List.cons.injEq] at h
      obtain ⟨rfl, h⟩ := h
      obtain ⟨u, v, rfl, rfl, rfl⟩ := ih h
      refine ⟨c :: u, v, rfl, ?_, rfl⟩
      rw [normalize]
      rintro more rfl rfl
      exact hne (more ++ v) rfl rfl

theorem mem_normalize_or {s : List Char} {c : Char} (h : c ∈ s) :
    c ∈ normalize s ∨ c = '\r' ∧ '\n' ∈ normalize s := by
  fun_induction normalize s with
  | case1 => simp at h
  | case2 rest ih =>
    simp only [List.mem_cons] at h
    rcases h with rfl | rfl | h
    · exact .inr ⟨rfl, .head _⟩
    · exact .inl (.head _)
    · exact (ih h).imp (.tail _) fun hr => ⟨hr.1, .tail _ hr.2⟩
  | case3 d rest _ ih =>
    rcases List.mem_cons.1 h with rfl | h
    · by_cases hc : c = '\r'
      · exact .inr ⟨hc, by simp [hc]⟩
      · exact .inl (by simp [hc])
    · exact (ih h).imp (.tail _) fun hr => ⟨hr.1, .tail _ hr.2⟩

theorem Blanks.of_normalize {s : List Char} (h : Blanks (Text.normalize s)) : Blanks s := by
  intro c hc
  obtain hm | ⟨rfl, _⟩ := mem_normalize_or hc
  · exact h c hm
  · rfl

theorem eq_normalize_of_not_mem {s : List Char} (h : '\n' ∉ normalize s) : normalize s = s := by
  refine normalize_of_not_mem fun hr => ?_
  obtain hm | ⟨_, hm⟩ := mem_normalize_or hr
  · exact not_mem_normalize s hm
  · exact h hm

end Stencil.Text
