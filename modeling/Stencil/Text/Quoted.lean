/-!
Quoted strings. A backslash takes the character after it along, so a string ends at the first quote
that no backslash precedes in this sense; `\n`, `\t`, `\r` and `\0` name control characters, and any
other character after a backslash stands for itself. Written strings use double quotes.
-/
set_option autoImplicit false

namespace Stencil.Text.Quoted

def escape (c : Char) : List Char :=
  if c = '"' then ['\\', '"']
  else if c = '\\' then ['\\', '\\']
  else if c = '\n' then ['\\', 'n']
  else if c = '\t' then ['\\', 't']
  else if c = '\r' then ['\\', 'r']
  else if c = '\x00' then ['\\', '0']
  else [c]

def write (s : List Char) : List Char := '"' :: s.flatMap escape ++ ['"']

def unescape (c : Char) : Char :=
  if c = 'n' then '\n' else if c = 't' then '\t' else if c = 'r' then '\r'
  else if c = '0' then '\x00' else c

/-- The content between the quotes, escapes resolved; a backslash at the end stands for itself. -/
def resolve : List Char → List Char
  | [] => []
  | ['\\'] => ['\\']
  | '\\' :: c :: rest => unescape c :: resolve rest
  | c :: rest => c :: resolve rest

/-- The rest of a string after its opening quote `q`, with the closing quote, and what follows. -/
def tail (q : Char) : List Char → Option (List Char × List Char)
  | [] => none
  | ['\\'] => none
  | '\\' :: c :: rest => (tail q rest).map fun (run, after) => ('\\' :: c :: run, after)
  | c :: rest =>
    if c = q then some ([c], rest) else (tail q rest).map fun (run, after) => (c :: run, after)

theorem tail_cons {q c : Char} (hc : c ≠ '\\') (rest : List Char) :
    tail q (c :: rest) = if c = q then some ([c], rest)
      else (tail q rest).map fun (run, after) => (c :: run, after) := by
  rw [tail]
  · exact fun h => absurd h hc
  · exact fun _ _ h => absurd h hc

theorem ne_backslash {c : Char} {rest : List Char} (hone : c = '\\' → rest = [] → False)
    (hmore : ∀ d more, c = '\\' → rest = d :: more → False) : c ≠ '\\' := by
  intro hc
  cases rest with
  | nil => exact hone hc rfl
  | cons d rest => exact hmore d rest hc rfl

theorem tail_append {q : Char} {s run after : List Char} (h : tail q s = some (run, after)) :
    run ++ after = s := by
  fun_induction tail q s generalizing run after with
  | case1 => simp at h
  | case2 => simp at h
  | case3 c rest ih =>
    obtain ⟨⟨r, a⟩, hr, he⟩ := Option.map_eq_some_iff.1 h
    simp only [Prod.mk.injEq] at he
    obtain ⟨rfl, rfl⟩ := he
    simp [ih hr]
  | case4 rest _ _ => simp at h; obtain ⟨rfl, rfl⟩ := h; rfl
  | case5 c rest _ _ _ ih =>
    obtain ⟨⟨r, a⟩, hr, he⟩ := Option.map_eq_some_iff.1 h
    simp only [Prod.mk.injEq] at he
    obtain ⟨rfl, rfl⟩ := he
    simp [ih hr]

theorem tail_run {q : Char} {s run after : List Char} (h : tail q s = some (run, after))
    (rest : List Char) : tail q (run ++ rest) = some (run, rest) := by
  fun_induction tail q s generalizing run after with
  | case1 => simp at h
  | case2 => simp at h
  | case3 c more ih =>
    obtain ⟨⟨r, a⟩, hr, he⟩ := Option.map_eq_some_iff.1 h
    simp only [Prod.mk.injEq] at he
    obtain ⟨rfl, rfl⟩ := he
    simp [tail, ih hr]
  | case4 more hone hmore =>
    simp only [Option.some.injEq, Prod.mk.injEq] at h
    obtain ⟨rfl, rfl⟩ := h
    rw [List.cons_append, tail_cons (ne_backslash hone hmore), if_pos rfl, List.nil_append]
  | case5 c more hone hmore hq ih =>
    obtain ⟨⟨r, a⟩, hr, he⟩ := Option.map_eq_some_iff.1 h
    simp only [Prod.mk.injEq] at he
    obtain ⟨rfl, rfl⟩ := he
    rw [List.cons_append, tail_cons (ne_backslash hone hmore), if_neg hq, ih hr]
    rfl

theorem tail_closed {q : Char} {s run after : List Char} (h : tail q s = some (run, after)) :
    ∃ inner, run = inner ++ [q] := by
  fun_induction tail q s generalizing run after with
  | case1 => simp at h
  | case2 => simp at h
  | case3 c rest ih =>
    obtain ⟨⟨r, a⟩, hr, he⟩ := Option.map_eq_some_iff.1 h
    obtain ⟨inner, hinner⟩ := ih hr
    obtain ⟨rfl, rfl⟩ := Prod.mk.inj he
    exact ⟨'\\' :: c :: inner, by simp [hinner]⟩
  | case4 =>
    obtain ⟨rfl, rfl⟩ := Prod.mk.inj (Option.some.inj h)
    exact ⟨[], rfl⟩
  | case5 c rest _ _ _ ih =>
    obtain ⟨⟨r, a⟩, hr, he⟩ := Option.map_eq_some_iff.1 h
    obtain ⟨inner, hinner⟩ := ih hr
    obtain ⟨rfl, rfl⟩ := Prod.mk.inj he
    exact ⟨c :: inner, by simp [hinner]⟩

theorem escape_cases (c : Char) :
    (escape c = [c] ∧ c ≠ '"' ∧ c ≠ '\\') ∨ ∃ d, escape c = ['\\', d] ∧ unescape d = c := by
  unfold escape
  repeat' split
  all_goals first
    | exact .inl ⟨rfl, by assumption, by assumption⟩
    | exact .inr ⟨_, rfl, by simp_all [unescape]⟩

/-- A written string is read back up to its closing quote, whatever follows. -/
theorem tail_flatMap_escape (s after : List Char) :
    tail '"' (s.flatMap escape ++ '"' :: after) = some (s.flatMap escape ++ ['"'], after) := by
  induction s with
  | nil => simp [tail]
  | cons c s ih =>
    obtain ⟨h, hq, hb⟩ | ⟨d, h, _⟩ := escape_cases c
    · simp [h, tail, hq, hb, ih]
    · simp [h, tail, ih]

theorem resolve_flatMap_escape (s : List Char) : resolve (s.flatMap escape) = s := by
  induction s with
  | nil => rfl
  | cons c s ih =>
    obtain ⟨h, _, hb⟩ | ⟨d, h, hd⟩ := escape_cases c
    · simp [h, resolve, hb, ih]
    · simp [h, resolve, hd, ih]

end Stencil.Text.Quoted
