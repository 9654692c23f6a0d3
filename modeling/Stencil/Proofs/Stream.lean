import Stencil.Token.Stream
set_option autoImplicit false

namespace Stencil.TokenStream

variable {s : TokenStream} {kind : Token.Kind} {t : Token} {i : Nat}

inductive Access where
  | next
  | peek (n : Nat)
  | current
  | previous
  | takeUntil (kind : Token.Kind)

def Access.perform (a : Access) (s : TokenStream) : TokenStream :=
  match a with
  | next => s.next.2
  | takeUntil kind => (s.takeUntil kind).2
  | peek _ | current | previous => s

def run (s : TokenStream) (accesses : List Access) : TokenStream :=
  accesses.foldl (fun s a => a.perform s) s

def endIndex (s : TokenStream) : Nat := s.tokens.findIdx (·.kind == .eof)

theorem exists_end (s : TokenStream) : ∃ t, s.tokens[s.endIndex]? = some t ∧ t.kind = .eof := by
  obtain ⟨t, ht, hk⟩ := (Option.any_eq_true _ _).1 s.ends
  have hlt : s.endIndex < s.tokens.length :=
    List.findIdx_lt_length_of_exists ⟨t, List.mem_of_getLast? ht, hk⟩
  have hend : (s.tokens[s.endIndex].kind == .eof) = true :=
    List.findIdx_getElem (p := fun t : Token => t.kind == .eof)
  exact ⟨_, List.getElem?_eq_getElem hlt, by simpa using hend⟩

theorem endIndex_lt (s : TokenStream) : s.endIndex < s.tokens.length := by
  obtain ⟨t, ht, -⟩ := s.exists_end
  exact (List.getElem?_eq_some_iff.1 ht).1

theorem ne_eof_of_lt_endIndex (hi : i < s.endIndex) (ht : s.tokens[i]? = some t) :
    t.kind ≠ .eof := by
  obtain ⟨hlt, rfl⟩ := List.getElem?_eq_some_iff.1 ht
  simpa using List.not_of_lt_findIdx hi

theorem cursor_le_endIndex (s : TokenStream) : s.cursor ≤ s.endIndex := by
  refine List.le_findIdx_of_not s.cursor_lt fun j hj => ?_
  have hlt : j < s.tokens.length := Nat.lt_trans hj s.cursor_lt
  have hmem : s.tokens[j] ∈ s.tokens.take s.cursor :=
    List.mem_take_iff_getElem.2 ⟨j, by omega, rfl⟩
  simpa using s.reads _ hmem

theorem getElem?_cursor (s : TokenStream) : s.tokens[s.cursor]? = some s.current := by
  simp [current, s.cursor_lt]

theorem isEof_iff : s.isEof = true ↔ s.cursor = s.endIndex := by
  rw [isEof, beq_iff_eq]
  constructor
  · intro h
    have := s.cursor_le_endIndex
    have hlt : ¬ s.cursor < s.endIndex := fun hlt => ne_eof_of_lt_endIndex hlt s.getElem?_cursor h
    omega
  · intro h
    obtain ⟨t, ht, hk⟩ := s.exists_end
    rw [← h, s.getElem?_cursor] at ht
    rw [Option.some.inj ht, hk]

theorem isEof_of_lt (h : s.cursor < s.endIndex) : s.isEof = false :=
  Bool.eq_false_iff.2 fun he => Nat.ne_of_lt h (isEof_iff.1 he)

@[simp] theorem tokens_advance (h : s.isEof = false) : (s.advance h).tokens = s.tokens := rfl

@[simp] theorem cursor_advance (h : s.isEof = false) : (s.advance h).cursor = s.cursor + 1 := rfl

@[simp] theorem endIndex_advance (h : s.isEof = false) : (s.advance h).endIndex = s.endIndex := rfl

structure FirstAt (s : TokenStream) (kind : Token.Kind) (i : Nat) : Prop where
  ahead : s.cursor ≤ i
  found : ∃ t, s.tokens[i]? = some t ∧ t.kind = kind
  first : ∀ j t, s.cursor ≤ j → j < i → s.tokens[j]? = some t → t.kind ≠ kind

theorem takeUntil_of_isEof (h : s.isEof = true) :
    s.takeUntil kind = (.error (atEnd s.current.line), s) := by
  rw [takeUntil, dif_neg (by simp [h])]

theorem takeUntil_here (h : s.isEof = false) (hk : s.current.kind = kind) :
    s.takeUntil kind = (.ok [], s.advance h) := by
  rw [takeUntil, dif_pos h, if_pos hk]

theorem takeUntil_further (h : s.isEof = false) (hk : s.current.kind ≠ kind) :
    s.takeUntil kind = (((s.advance h).takeUntil kind).1.map (s.current :: ·),
      ((s.advance h).takeUntil kind).2) := by
  rw [takeUntil, dif_pos h, if_neg hk]

structure MovedTo (s t : TokenStream) (i : Nat) : Prop where
  tokens : t.tokens = s.tokens
  cursor : t.cursor = i

theorem takeUntil_of_firstAt (s : TokenStream) (h : s.FirstAt kind i) (hi : i < s.endIndex) :
    (s.takeUntil kind).1 = .ok ((s.tokens.take i).drop s.cursor) ∧
      s.MovedTo (s.takeUntil kind).2 (i + 1) := by
  have hahead := h.ahead
  have heof : s.isEof = false := isEof_of_lt (by omega)
  by_cases hc : s.cursor = i
  · obtain ⟨t, ht, hk⟩ := h.found
    rw [← hc, s.getElem?_cursor] at ht
    rw [takeUntil_here heof (by rw [Option.some.inj ht, hk])]
    refine ⟨?_, rfl, by simp [hc]⟩
    rw [List.drop_eq_nil_of_le (by rw [List.length_take]; omega)]
  · have hne : s.current.kind ≠ kind := h.first _ _ (Nat.le_refl _) (by omega) s.getElem?_cursor
    have hrest : (s.advance heof).FirstAt kind i :=
      ⟨by simp; omega, h.found, fun j t hj => h.first j t (by simp at hj; omega)⟩
    obtain ⟨hok, htokens, hcursor⟩ := takeUntil_of_firstAt (s.advance heof) hrest hi
    rw [takeUntil_further heof hne]
    refine ⟨?_, htokens, hcursor⟩
    have hlt : s.cursor < (s.tokens.take i).length := by
      have := s.endIndex_lt
      rw [List.length_take]
      omega
    rw [hok, List.drop_eq_getElem_cons hlt, List.getElem_take]
    rfl
termination_by s.endIndex - s.cursor
decreasing_by simp; omega

theorem takeUntil_of_missing (s : TokenStream)
    (h : ∀ j t, s.cursor ≤ j → j < s.endIndex → s.tokens[j]? = some t → t.kind ≠ kind) :
    (∃ t, s.tokens[s.endIndex]? = some t ∧ (s.takeUntil kind).1 = .error (atEnd t.line)) ∧
      s.MovedTo (s.takeUntil kind).2 s.endIndex := by
  have hle := s.cursor_le_endIndex
  by_cases hc : s.cursor = s.endIndex
  · rw [takeUntil_of_isEof (isEof_iff.2 hc)]
    exact ⟨⟨s.current, hc ▸ s.getElem?_cursor, rfl⟩, rfl, hc⟩
  · have heof : s.isEof = false := isEof_of_lt (by omega)
    have hne : s.current.kind ≠ kind := h _ _ (Nat.le_refl _) (by omega) s.getElem?_cursor
    obtain ⟨⟨t, ht, herror⟩, htokens, hcursor⟩ := takeUntil_of_missing (s.advance heof)
      fun j t hj => h j t (by simp at hj; omega)
    rw [takeUntil_further heof hne]
    exact ⟨⟨t, ht, by rw [herror]; rfl⟩, htokens, hcursor⟩
termination_by s.endIndex - s.cursor
decreasing_by simp; omega

theorem next_of_isEof (h : s.isEof = true) : s.next = (.error (atEnd s.current.line), s) := by
  rw [next, dif_neg (by simp [h])]

theorem next_of_not_isEof (h : s.isEof = false) : s.next = (.ok s.current, s.advance h) := by
  rw [next, dif_pos h]

/-- The place that looking ahead reads, a sum of 64 bits. -/
theorem getElem?_peek (s : TokenStream) (n : Nat) :
    s.tokens[min ((s.cursor + n) % wordSize) (s.tokens.length - 1)]? = some (s.peek n) := by
  have := s.cursor_lt
  rw [List.getElem?_eq_getElem (by omega)]
  rfl

theorem kind_getLast (s : TokenStream) (h : s.tokens[s.tokens.length - 1]? = some t) :
    t.kind = .eof := by
  have hends := s.ends
  rw [List.getLast?_eq_getElem?, h] at hends
  simpa using hends

/-- Looking ahead gives the token at the place asked for, or the last one if there are not so many,
exactly when this place is a number of 64 bits. -/
theorem peek_clamped_iff (s : TokenStream) {n : Nat} (hn : n < wordSize)
    (hl : s.tokens.length ≤ wordSize) :
    s.tokens[min (s.cursor + n) (s.tokens.length - 1)]? = some (s.peek n) ↔
      s.cursor + n < wordSize := by
  have hc := s.cursor_lt
  have hpeek := s.getElem?_peek n
  constructor
  · intro h
    refine Nat.lt_of_not_le fun hge => ?_
    -- the sum starts again at zero, and what is read was read before
    have hmod : (s.cursor + n) % wordSize = s.cursor + n - wordSize := by
      rw [Nat.mod_eq_sub_mod (by omega), Nat.mod_eq_of_lt (by omega)]
    rw [Nat.min_eq_right (by omega)] at h
    have hlt : s.cursor + n - wordSize < s.cursor := by omega
    rw [hmod, Nat.min_eq_left (by omega)] at hpeek
    exact ne_eof_of_lt_endIndex (Nat.lt_of_lt_of_le hlt s.cursor_le_endIndex) hpeek
      (s.kind_getLast h)
  · intro h
    rwa [Nat.mod_eq_of_lt h] at hpeek

/-- The answers of a stream to what can be asked of it next, and where they leave the cursor. -/
structure Disciplined (s : TokenStream) : Prop where
  bounded : s.cursor ≤ s.endIndex ∧ s.endIndex < s.tokens.length
  current : s.tokens[s.cursor]? = some s.current
  previous : s.tokens[s.cursor - 1]? = some s.previous
  read : s.current.kind ≠ .eof →
    s.next.1 = .ok s.current ∧ s.MovedTo s.next.2 (s.cursor + 1)
  ended : s.current.kind = .eof → s.next = (.error (atEnd s.current.line), s)
  taken : ∀ kind i, s.FirstAt kind i → i < s.endIndex →
    (s.takeUntil kind).1 = .ok ((s.tokens.take i).drop s.cursor) ∧
      s.MovedTo (s.takeUntil kind).2 (i + 1)
  missed : ∀ kind, (kind = .eof ∨ ∀ i, s.FirstAt kind i → s.endIndex ≤ i) →
    (∃ t, s.tokens[s.endIndex]? = some t ∧ (s.takeUntil kind).1 = .error (atEnd t.line)) ∧
      s.MovedTo (s.takeUntil kind).2 s.endIndex
  peeked : ∀ n, s.tokens[min ((s.cursor + n) % wordSize) (s.tokens.length - 1)]? = some (s.peek n)
  clamped : s.tokens.length ≤ wordSize → ∀ n < wordSize,
    (s.tokens[min (s.cursor + n) (s.tokens.length - 1)]? = some (s.peek n) ↔
      s.cursor + n < wordSize)

theorem exists_firstAt {j : Nat} (hj : s.cursor ≤ j) (ht : s.tokens[j]? = some t) :
    ∃ i ≤ j, s.FirstAt t.kind i := by
  induction j using Nat.strongRecOn generalizing t with
  | ind j ih =>
    by_cases h : ∃ k u, s.cursor ≤ k ∧ k < j ∧ s.tokens[k]? = some u ∧ u.kind = t.kind
    · obtain ⟨k, u, hk, hlt, hu, hkind⟩ := h
      obtain ⟨i, hi, hfirst⟩ := ih k hlt hk hu
      exact ⟨i, by omega, hkind ▸ hfirst⟩
    · exact ⟨j, Nat.le_refl j, hj, ⟨t, ht, rfl⟩, fun k u hk hlt hu he => h ⟨k, u, hk, hlt, hu, he⟩⟩

theorem disciplined (s : TokenStream) : s.Disciplined where
  bounded := ⟨s.cursor_le_endIndex, s.endIndex_lt⟩
  current := s.getElem?_cursor
  previous := by
    have := s.cursor_lt
    rw [List.getElem?_eq_getElem (by omega)]
    rfl
  read h := by
    have heof : s.isEof = false := by simpa [isEof] using h
    rw [next_of_not_isEof heof]
    exact ⟨rfl, rfl, rfl⟩
  ended h := next_of_isEof (by simpa [isEof] using h)
  taken _ _ h hi := s.takeUntil_of_firstAt h hi
  missed kind h := by
    refine s.takeUntil_of_missing fun j t hj hlt ht hk => ?_
    subst hk
    cases h with
    | inl h => exact ne_eof_of_lt_endIndex hlt ht h
    | inr h =>
      obtain ⟨i, hi, hfirst⟩ := exists_firstAt hj ht
      have := h i hfirst
      omega
  peeked := s.getElem?_peek
  clamped hl _ hn := s.peek_clamped_iff hn hl

theorem perform_moves (a : Access) (s : TokenStream) :
    (a.perform s).tokens = s.tokens ∧ s.cursor ≤ (a.perform s).cursor := by
  cases a with
  | next =>
    cases h : s.isEof with
    | false => simp [Access.perform, next_of_not_isEof h]
    | true => simp [Access.perform, next_of_isEof h]
  | takeUntil kind =>
    by_cases h : ∃ i, s.FirstAt kind i ∧ i < s.endIndex
    · obtain ⟨i, hi, hlt⟩ := h
      obtain ⟨-, htokens, hcursor⟩ := s.takeUntil_of_firstAt hi hlt
      have := hi.ahead
      exact ⟨htokens, by simp only [Access.perform]; omega⟩
    · have hmissed := s.disciplined.missed kind
        (.inr fun i hi => Nat.le_of_not_lt fun hlt => h ⟨i, hi, hlt⟩)
      have := s.cursor_le_endIndex
      exact ⟨hmissed.2.tokens, by simp only [Access.perform, hmissed.2.cursor]; omega⟩
  | peek | current | previous => exact ⟨rfl, Nat.le_refl _⟩

theorem run_moves (s : TokenStream) (accesses : List Access) :
    (s.run accesses).tokens = s.tokens ∧ s.cursor ≤ (s.run accesses).cursor := by
  induction accesses generalizing s with
  | nil => exact ⟨rfl, Nat.le_refl _⟩
  | cons a rest ih =>
    obtain ⟨htokens, hcursor⟩ := perform_moves a s
    obtain ⟨htokens', hcursor'⟩ := ih (a.perform s)
    exact ⟨htokens'.trans htokens, Nat.le_trans hcursor hcursor'⟩

/-- Whatever is asked of a stream, its tokens stay as they are, every request is answered with the
tokens at the places it names, and the cursor only moves on, up to the first end. -/
theorem disciplined_run (tokens : List Token) (accesses more : List Access) :
    ((ofTokens tokens).run accesses).tokens = closeTokens tokens ∧
      ((ofTokens tokens).run accesses).Disciplined ∧
      ((ofTokens tokens).run accesses).cursor
        ≤ ((ofTokens tokens).run (accesses ++ more)).cursor := by
  refine ⟨(run_moves _ accesses).1, disciplined _, ?_⟩
  rw [run, run, List.foldl_append]
  exact (run_moves _ more).2

theorem peek_largest_rereads :
    let s := (ofTokens [⟨.text, "a", 0, 1⟩]).run [.next]
    s.peek (wordSize - 1) = ⟨.text, "a", 0, 1⟩ ∧
      s.tokens[min (s.cursor + (wordSize - 1)) (s.tokens.length - 1)]? = some ⟨.eof, "", 1, 1⟩ := by
  decide +kernel

end Stencil.TokenStream
