import Stencil.Token.Length
import Stencil.Proofs.Lexeme
/-!
Lengths in bytes are the sizes of the lexemes that are read. A byte below 128 is a character by
itself, so what is counted byte by byte ends where the character by character reading ends. A
string is written with quotes that it is counted and read back to in front of any text.
-/
set_option autoImplicit false

namespace Stencil.Text

theorem toNat_toUInt8 {c : Char} (h : c.toNat < 128) : c.toUInt8.toNat = c.toNat := by
  rw [Char.toUInt8, UInt32.toNat_toUInt8]
  exact Nat.mod_eq_of_lt (Nat.lt_of_lt_of_le h (by decide))

theorem utf8EncodeChar_cases (c : Char) :
    (c.toNat < 128 ∧ String.utf8EncodeChar c = [c.toUInt8]) ∨
      (128 ≤ c.toNat ∧ ∀ b ∈ String.utf8EncodeChar c, 128 ≤ b.toNat) := by
  by_cases h : c.toNat ≤ 127
  · left
    exact ⟨by omega, String.utf8EncodeChar_eq_singleton (Char.utf8Size_eq_one_iff.2 h)⟩
  · right
    have hc : ¬ c.val.toNat ≤ 127 := h
    refine ⟨by omega, ?_⟩
    simp only [String.utf8EncodeChar, hc, if_false]
    split
    · simp; omega
    · split
      · simp; omega
      · simp; omega

/-- The first byte of a character and the others. Only the first one may be below 128, and then
it is the character. -/
structure Spelled (c : Char) (b : UInt8) (run : List UInt8) : Prop where
  size : c.utf8Size = 1 + run.length
  trail : ∀ x ∈ run, 128 ≤ x.toNat
  ascii : ∀ n < 128, b.toNat = n ↔ c.toNat = n

theorem bytes_cons (c : Char) (s : List Char) :
    ∃ b run, bytes (c :: s) = b :: run ++ bytes s ∧ Spelled c b run := by
  have hlength := String.length_utf8EncodeChar c
  have hbytes : bytes (c :: s) = String.utf8EncodeChar c ++ bytes s := rfl
  obtain ⟨hc, he⟩ | ⟨hc, hwide⟩ := utf8EncodeChar_cases c
  · refine ⟨c.toUInt8, [], by rw [hbytes, he], ?_, by simp, by simp [toNat_toUInt8 hc]⟩
    rw [← hlength, he]
    rfl
  · cases he : String.utf8EncodeChar c with
    | nil =>
      have := Char.utf8Size_pos c
      rw [he] at hlength
      simp at hlength
      omega
    | cons b run =>
      rw [he] at hlength hwide
      obtain ⟨hb, hrun⟩ := List.forall_mem_cons.1 hwide
      refine ⟨b, run, by rw [hbytes, he], ?_, hrun, ?_⟩
      · rw [← hlength, List.length_cons, Nat.add_comm]
      · omega

theorem bytes_append (s t : List Char) : bytes (s ++ t) = bytes s ++ bytes t :=
  List.flatMap_append

theorem length_bytes (s : List Char) : (bytes s).length = size s := by
  induction s with
  | nil => rfl
  | cons c s ih =>
    obtain ⟨b, run, hbytes, hc⟩ := bytes_cons c s
    rw [hbytes, List.length_append, ih, size, hc.size, List.length_cons, Nat.add_comm 1]

theorem drop_bytes {s a t : List Char} (h : a ++ t = s) : (bytes s).drop (size a) = bytes t := by
  rw [← h, bytes_append, ← length_bytes, List.drop_left]

theorem size_pos_iff {s : List Char} : 0 < size s ↔ s ≠ [] := by
  cases s with
  | nil => simp [size]
  | cons c s =>
    have := Char.utf8Size_pos c
    simp only [size]
    constructor
    · simp
    · omega

namespace Spelled

variable {c : Char} {b : UInt8} {run : List UInt8} (h : Spelled c b run)
include h

theorem byte_iff {d : Char} (hd : d.toNat < 128) : b = d.toUInt8 ↔ c = d := by
  rw [← UInt8.toNat_inj, toNat_toUInt8 hd, h.ascii _ hd, Char.toNat_inj]

theorem isDigit : Length.isDigit b = c.isDigit := by
  have hb := h.ascii b.toNat
  have hc := h.ascii c.toNat
  have hbyte : Length.isDigit b = true ↔ 48 ≤ b.toNat ∧ b.toNat ≤ 57 := by
    simp only [Length.isDigit, Bool.and_eq_true, decide_eq_true_eq]
    exact Iff.rfl
  have hchar : c.isDigit = true ↔ 48 ≤ c.toNat ∧ c.toNat ≤ 57 := by
    simp only [Char.isDigit, Bool.and_eq_true, decide_eq_true_eq]
    exact Iff.rfl
  rw [Bool.eq_iff_iff, hbyte, hchar]
  omega

theorem run_eq_nil (hc : c.toNat < 128) : run = [] := by
  have hone : c.utf8Size = 1 := Char.utf8Size_eq_one_iff.2 (Nat.le_of_lt_succ hc)
  have := h.size
  exact List.eq_nil_of_length_eq_zero (by omega)

end Spelled

end Stencil.Text

namespace Stencil.Length
open Text

/-! ### Numbers -/

theorem digits_bytes (s : List Char) : digits (bytes s) = size (Lexeme.digits s).1 := by
  induction s with
  | nil => rfl
  | cons c s ih =>
    obtain ⟨b, run, hbytes, hc⟩ := bytes_cons c s
    have hb := hc.isDigit
    rw [hbytes]
    cases hd : c.isDigit with
    | false => simp [digits, Lexeme.digits, hb, hd, size]
    | true =>
      have hsmall : c.toNat < 128 := Nat.lt_of_le_of_lt (toNat_of_isDigit hd).2 (by decide)
      obtain rfl := hc.run_eq_nil hsmall
      have hsize := hc.size
      simp only [digits, Lexeme.digits] at ih ⊢
      simp [hb, hd, size, ih, hsize, Nat.add_comm]

theorem fraction_bytes (s : List Char) : fraction (bytes s) = size (Lexeme.fraction s).1 := by
  cases s with
  | nil => rfl
  | cons c s =>
    obtain ⟨b, run, hbytes, hc⟩ := bytes_cons c s
    have hpoint : b = '.'.toUInt8 ↔ c = '.' := hc.byte_iff (by decide)
    rw [hbytes]
    by_cases h : c = '.'
    · subst h
      obtain rfl := hc.run_eq_nil (by decide)
      simp only [List.cons_append, List.nil_append, fraction, Lexeme.fraction, digits_bytes,
        size_pos_iff, hpoint]
      by_cases hp : (Lexeme.digits s).1 = []
      · simp [hp, size]
      · simp [hp, size, hc.size]
    · simp [fraction, Lexeme.fraction, hpoint, h, size]

theorem sign_bytes (s : List Char) : sign (bytes s) = size (Lexeme.sign s).1 := by
  cases s with
  | nil => rfl
  | cons c s =>
    obtain ⟨b, run, hbytes, hc⟩ := bytes_cons c s
    have hplus : b = '+'.toUInt8 ↔ c = '+' := hc.byte_iff (by decide)
    have hminus : b = '-'.toUInt8 ↔ c = '-' := hc.byte_iff (by decide)
    simp only [hbytes, List.cons_append, sign, hplus, hminus]
    by_cases h : c = '+'
    · subst h
      rfl
    · by_cases hm : c = '-'
      · subst hm
        rfl
      · simp [Lexeme.sign, h, hm, size]

theorem exponent_bytes (s : List Char) : exponent (bytes s) = size (Lexeme.exponent s).1 := by
  cases s with
  | nil => rfl
  | cons c s =>
    obtain ⟨b, run, hbytes, hc⟩ := bytes_cons c s
    have hsmall : b = 'e'.toUInt8 ↔ c = 'e' := hc.byte_iff (by decide)
    have hbig : b = 'E'.toUInt8 ↔ c = 'E' := hc.byte_iff (by decide)
    rw [hbytes]
    by_cases h : c = 'e' ∨ c = 'E'
    · have hone : c.toNat < 128 := by rcases h with rfl | rfl <;> decide
      obtain rfl := hc.run_eq_nil hone
      simp only [List.cons_append, List.nil_append, exponent, Lexeme.exponent, sign_bytes,
        drop_bytes (Lexeme.sign_append s), digits_bytes, size_pos_iff, hsmall, hbig]
      by_cases hp : (Lexeme.digits (Lexeme.sign s).2).1 = []
      · simp [hp, size]
      · simp [hp, h, size, size_append, hc.size, Nat.add_assoc]
    · simp [exponent, Lexeme.exponent, hsmall, hbig, h, size]

theorem number_bytes (s : List Char) : number (bytes s) = size (Lexeme.number s).1 := by
  have hwhole := Lexeme.digits_append s
  have hpart : ((Lexeme.digits s).1 ++ (Lexeme.fraction (Lexeme.digits s).2).1)
      ++ (Lexeme.fraction (Lexeme.digits s).2).2 = s := by
    rw [List.append_assoc, Lexeme.fraction_append, hwhole]
  simp only [number, Lexeme.number, digits_bytes, drop_bytes hwhole, fraction_bytes,
    ← size_append, drop_bytes hpart, exponent_bytes]

/-! ### Strings -/

theorem closing?_cons {quote b : UInt8} (hb : b ≠ '\\'.toUInt8) (rest : List UInt8) :
    closing? quote (b :: rest)
      = if b = quote then some 1 else (closing? quote rest).map (· + 1) := by
  rw [closing?.eq_def]
  simp only [if_neg hb]

theorem closing?_escape (quote b : UInt8) (rest : List UInt8) :
    closing? quote ('\\'.toUInt8 :: b :: rest) = (closing? quote rest).map (· + 2) := by
  rw [closing?, if_pos rfl]

theorem closing?_append {quote : UInt8} (hq : quote.toNat < 128) {run : List UInt8}
    (h : ∀ x ∈ run, 128 ≤ x.toNat) (rest : List UInt8) :
    closing? quote (run ++ rest) = (closing? quote rest).map (· + run.length) := by
  induction run with
  | nil => simp
  | cons x run ih =>
    obtain ⟨hx, hrun⟩ := List.forall_mem_cons.1 h
    have hne : x ≠ quote := by
      rintro rfl
      omega
    have hback : x ≠ '\\'.toUInt8 := by
      rintro rfl
      revert hx
      decide
    rw [List.cons_append, closing?_cons hback, if_neg hne, ih hrun, Option.map_map]
    simp [Function.comp_def, Nat.add_assoc]

/-- The byte after a backslash is passed over, and so are the others of its character. -/
theorem closing?_bytes {q : Char} (hq : q.toNat < 128) (s : List Char) :
    closing? q.toUInt8 (bytes s) = (Quoted.tail q s).map fun p => size p.1 := by
  have hquote : q.toUInt8.toNat < 128 := by rwa [toNat_toUInt8 hq]
  fun_induction Quoted.tail q s with
  | case1 => rfl
  | case2 => rfl
  | case3 c rest ih =>
    obtain ⟨b, run, hbytes, hc⟩ := bytes_cons c rest
    have hback : bytes ('\\' :: c :: rest) = '\\'.toUInt8 :: bytes (c :: rest) := rfl
    have hsize : '\\'.utf8Size = 1 := rfl
    rw [hback, hbytes, List.cons_append, closing?_escape, closing?_append hquote hc.trail, ih,
      Option.map_map, Option.map_map, Option.map_map]
    congr 1
    funext p
    simp only [Function.comp_apply, size, hc.size, hsize]
    omega
  | case4 rest hone hmore =>
    obtain ⟨b, run, hbytes, hc⟩ := bytes_cons q rest
    obtain rfl := hc.run_eq_nil hq
    have hback : b ≠ '\\'.toUInt8 := fun hb =>
      Quoted.ne_backslash hone hmore ((hc.byte_iff (by decide)).1 hb)
    rw [hbytes, List.cons_append, closing?_cons hback, if_pos ((hc.byte_iff hq).2 rfl)]
    simp [size, hc.size]
  | case5 c rest hone hmore hne ih =>
    obtain ⟨b, run, hbytes, hc⟩ := bytes_cons c rest
    have hback : b ≠ '\\'.toUInt8 := fun hb =>
      Quoted.ne_backslash hone hmore ((hc.byte_iff (by decide)).1 hb)
    have hother : b ≠ q.toUInt8 := fun hb => hne ((hc.byte_iff hq).1 hb)
    rw [hbytes, List.cons_append, closing?_cons hback, if_neg hother,
      closing?_append hquote hc.trail, ih, Option.map_map, Option.map_map, Option.map_map]
    congr 1
    funext p
    simp only [Function.comp_apply, size, hc.size]
    omega

/-- The length of a string is the size of the string that is read. -/
theorem string?_bytes {q : Char} (hq : q.toNat < 128) (s : List Char) :
    string? (bytes (q :: s)) = (Quoted.tail q s).map fun p => size (q :: p.1) := by
  obtain ⟨b, run, hbytes, hc⟩ := bytes_cons q s
  obtain rfl := hc.run_eq_nil hq
  obtain rfl := (hc.byte_iff hq).2 rfl
  rw [hbytes, List.cons_append, List.nil_append, string?, closing?_bytes hq, Option.map_map]
  congr 1
  funext p
  simp only [Function.comp_apply, size, hc.size]
  exact Nat.add_comm _ _

/-! ### Names -/

theorem segment_isEmpty (s : List Char) :
    (segment s).1.isEmpty = !s.head?.any isNameStart := by
  cases s with
  | nil => rfl
  | cons c rest => cases h : isNameStart c <;> simp [segment, h]

theorem nameTail_segment {s : List Char} (h : s.head?.any isNameStart = true) :
    (∀ c ∈ (segment s).2.head?, isNameChar c = false) ∧
      (Lexeme.nameTail s).1 = (segment s).1 ++ (Lexeme.nameTail (segment s).2).1 := by
  cases s with
  | nil => simp at h
  | cons c rest =>
    have hc : isNameStart c = true := by simpa using h
    have hrun : ∀ d ∈ c :: rest.takeWhile isNameChar, isNameChar d = true :=
      List.forall_mem_cons.2
        ⟨isNameChar_of_isNameStart hc, List.all_eq_true.1 List.all_takeWhile⟩
    have hmore := Lexeme.nameTail_chars hrun (rest.dropWhile isNameChar)
    rw [List.cons_append, List.takeWhile_append_dropWhile] at hmore
    simp only [segment, hc, if_true, hmore, and_true]
    intro d hd
    have hstop := List.head?_dropWhile_not isNameChar rest
    rw [Option.mem_def.1 hd] at hstop
    exact hstop

theorem segments_eq {s : List Char} (h : ∀ c ∈ s.head?, isNameChar c = false) :
    segments s = size (Lexeme.nameTail s).1 := by
  fun_induction segments s with
  | case1 => rfl
  | case2 rest next hnext =>
    have hpoint : isNameChar '.' = false := h '.' rfl
    have hstart : rest.head?.any isNameStart = false := by simpa [next, segment_isEmpty] using hnext
    simp [Lexeme.nameTail, hpoint, hstart, size]
  | case3 rest next hnext ih =>
    have hpoint : isNameChar '.' = false := h '.' rfl
    have hstart : rest.head?.any isNameStart = true := by simpa [next, segment_isEmpty] using hnext
    obtain ⟨hstop, hmore⟩ := nameTail_segment hstart
    have hsize : '.'.utf8Size = 1 := rfl
    rw [ih hstop, Lexeme.nameTail]
    simp [hstart, hmore, size, size_append, hsize, next, Nat.add_assoc]
  | case4 c rest hc =>
    have hname : isNameChar c = false := h c rfl
    simp [Lexeme.nameTail, hname, hc, size]

theorem name_eq {c : Char} (hc : isNameStart c = true) (rest : List Char) :
    name (c :: rest) = size (c :: (Lexeme.nameTail rest).1) := by
  obtain ⟨hstop, hmore⟩ := nameTail_segment (s := c :: rest) (by simpa using hc)
  rw [name, segments_eq hstop, ← size_append, ← hmore, Lexeme.nameTail]
  simp [isNameChar_of_isNameStart hc]

end Stencil.Length

namespace Stencil
open Text

/-- A written string is counted and read to its closing quote in front of any text, and its
content is the string again. -/
theorem string_write (s rest : String) (offset line : Nat) :
    Length.string? (bytes (Quoted.write s.toList ++ rest.toList))
        = some (size (Quoted.write s.toList)) ∧
      lexeme? (Quoted.write s.toList ++ rest.toList)
        = some (.string, Quoted.write s.toList, rest.toList) ∧
      (⟨.string, String.ofList (Quoted.write s.toList), offset, line⟩ : Token).unquote
        = some s := by
  refine ⟨?_, Lexeme.lexeme?_string s.toList rest.toList, ?_⟩
  · have hquote : '"'.toNat < 128 := by decide
    simp only [Quoted.write, List.cons_append, List.append_assoc, List.nil_append]
    rw [Length.string?_bytes hquote, Quoted.tail_flatMap_escape]
    rfl
  · rw [Token.unquote_write, String.ofList_toList]

-- a backslash takes the first of two bytes along, and the second one is passed over
example : Length.string? (bytes ['"', '\\', 'é', '"', 'x']) = some 5 := by decide

end Stencil
