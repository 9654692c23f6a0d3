import Stencil.Proofs.Document.Grammar
/-!
Reading JSON back. A reader goes through a text character by character and keeps what is open around
the place it has reached. What a document is written as takes the reader from a place where a value
is due to the place behind this value, so a written document is read back.
-/
set_option autoImplicit false

namespace Stencil.Document

/-- What is open: a list with the items read so far, or a record with the fields read so far and
the key of the next one. The newest come first. -/
inductive Frame where
  | list (before : List Document)
  | record (before : List (String × Document)) (key : Option String)

/-- What is open, innermost first, and the value that has just ended, if any. -/
structure Reader where
  frames : List Frame
  value : Option Document

namespace Reader

def start : Reader := ⟨[], none⟩

def push (r : Reader) (d : Document) : Option Reader :=
  match r.value with
  | none => some ⟨r.frames, some d⟩
  | some _ => none

def enter (r : Reader) (frame : Frame) : Option Reader :=
  match r.value with
  | none => some ⟨frame :: r.frames, none⟩
  | some _ => none

def comma : Reader → Option Reader
  | ⟨.list before :: outer, some d⟩ => some ⟨.list (d :: before) :: outer, none⟩
  | ⟨.record before (some key) :: outer, some d⟩ =>
    some ⟨.record ((key, d) :: before) none :: outer, none⟩
  | _ => none

def colon : Reader → Option Reader
  | ⟨.record before none :: outer, some (.string key)⟩ =>
    some ⟨.record before (some key) :: outer, none⟩
  | _ => none

def leaveList : Reader → Option Reader
  | ⟨.list [] :: outer, none⟩ => some ⟨outer, some (.list [])⟩
  | ⟨.list before :: outer, some d⟩ => some ⟨outer, some (.list (d :: before).reverse)⟩
  | _ => none

def leaveRecord : Reader → Option Reader
  | ⟨.record [] none :: outer, none⟩ => some ⟨outer, some (.record [])⟩
  | ⟨.record before (some key) :: outer, some d⟩ =>
    some ⟨outer, some (.record ((key, d) :: before).reverse)⟩
  | _ => none

def step (r : Reader) (c : Char) : Option Reader :=
  if Json.isBlank c then some r
  else if c = '[' then r.enter (.list [])
  else if c = ']' then r.leaveList
  else if c = '{' then r.enter (.record [] none)
  else if c = '}' then r.leaveRecord
  else if c = ',' then r.comma
  else if c = ':' then r.colon
  else none

def letter? (c : Char) : Option Char := (Json.letters.find? (·.1 == c)).map Prod.snd

/-- The character of a code in four digits. Pairs of codes for one character are not read. -/
def code? (a b c d : Char) : Option Char :=
  match Json.hexValue? a, Json.hexValue? b, Json.hexValue? c, Json.hexValue? d with
  | some a, some b, some c, some d =>
    let n := ((a * 16 + b) * 16 + c) * 16 + d
    if n.isValidChar then some (Char.ofNat n) else none
  | _, _, _, _ => none

mutual

def read (r : Reader) : List Char → Option Document
  | [] => if r.frames.isEmpty then r.value else none
  | '"' :: rest => readString r [] rest
  | 'n' :: 'u' :: 'l' :: 'l' :: rest => (r.push .null).bind fun r => read r rest
  | c :: rest => (r.step c).bind fun r => read r rest

/-- Reads on inside a string; the characters read so far are given from the newest on. -/
def readString (r : Reader) (before : List Char) : List Char → Option Document
  | [] => none
  | '"' :: rest => (r.push (.string (String.ofList before.reverse))).bind fun r => read r rest
  | '\\' :: 'u' :: a :: b :: c :: d :: rest =>
    (code? a b c d).bind fun x => readString r (x :: before) rest
  | '\\' :: c :: rest => (letter? c).bind fun x => readString r (x :: before) rest
  | c :: rest => if c.toNat < 32 then none else readString r (c :: before) rest

end

end Reader

/-- The document that a text of JSON stands for. Numbers, `true` and `false` are no documents. -/
def ofString? (text : String) : Option Document := Reader.start.read text.toList

namespace Reader

variable {r : Reader} {before rest : List Char}

theorem letter?_eq_some {c d : Char} (h : (c, d) ∈ Json.letters) : letter? c = some d := by
  simp only [Json.letters, List.mem_cons, Prod.mk.injEq, List.not_mem_nil, or_false] at h
  rcases h with ⟨rfl, rfl⟩ | ⟨rfl, rfl⟩ | ⟨rfl, rfl⟩ | ⟨rfl, rfl⟩ | ⟨rfl, rfl⟩ | ⟨rfl, rfl⟩ |
    ⟨rfl, rfl⟩ | ⟨rfl, rfl⟩ <;> rfl

theorem code?_hexDigit {c : Char} (h : c.toNat < 32) :
    code? '0' '0' (hexDigit (c.toNat / 16)) (hexDigit (c.toNat % 16)) = some c := by
  have h0 : Json.hexValue? '0' = some 0 := rfl
  have h1 := Json.hexValue?_hexDigit (c.toNat / 16) (by omega)
  have h2 := Json.hexValue?_hexDigit (c.toNat % 16) (by omega)
  have hn : ((0 * 16 + 0) * 16 + c.toNat / 16) * 16 + c.toNat % 16 = c.toNat := by omega
  simp only [code?, h0, h1, h2, hn]
  rw [if_pos (show c.toNat.isValidChar from c.valid), Char.ofNat_toNat]

theorem readString_escape (c : Char) :
    readString r before (escape c ++ rest) = readString r (c :: before) rest := by
  obtain ⟨h, hq, hb, hc⟩ | ⟨d, h, hd⟩ | ⟨h, hc⟩ := escape_cases c
  · simp [h, readString, hb, Nat.not_lt.2 hc]
  · have hu : d ≠ 'u' := by
      rintro rfl
      simp [Json.letters] at hd
    simp [h, readString, hu, letter?_eq_some hd]
  · simp [h, readString, code?_hexDigit hc]

theorem readString_flatMap_escape (s : List Char) :
    readString r before (s.flatMap escape ++ '"' :: rest) =
      (r.push (.string (String.ofList (before.reverse ++ s)))).bind fun r => read r rest := by
  induction s generalizing before with
  | nil => simp [readString]
  | cons c s ih => simp [readString_escape, ih]

theorem read_writeString (s : String) :
    read r (writeString s rest) = (r.push (.string s)).bind fun r => read r rest := by
  simp [writeString, read, readString_flatMap_escape]

theorem read_step {s : Reader} {c : Char} (hn : c ≠ 'n') (hq : c ≠ '"') (hs : r.step c = some s) :
    read r (c :: rest) = read s rest := by
  simp [read, hn, hs]

theorem read_newLine (level : Nat) : read r (newLine level rest) = read r rest := by
  have hspaces (n : Nat) : read r (List.replicate n ' ' ++ rest) = read r rest := by
    induction n with
    | zero => rfl
    | succ n ih => rw [List.replicate_succ, List.cons_append, read_step (by simp) (by simp) rfl, ih]
  rw [newLine, List.cons_append, read_step (by simp) (by simp) rfl, hspaces]

mutual

/-- A written document takes the reader to the place behind it. -/
theorem read_write (d : Document) (outer : List Frame) (level : Nat) (rest : List Char) :
    read ⟨outer, none⟩ (d.write level rest) = read ⟨outer, some d⟩ rest := by
  match d with
  | .null => simp [write, read, push]
  | .string s => rw [write, read_writeString]; rfl
  | .list [] => simp [write, read, step, Json.isBlank, enter, leaveList]
  | .record [] => simp [write, read, step, Json.isBlank, enter, leaveRecord]
  | .list (item :: items) =>
    rw [write, read_step (by simp) (by simp) rfl,
      read_writeItems (item :: items) (List.cons_ne_nil _ _)]
    rfl
  | .record (field :: fields) =>
    rw [write, read_step (by simp) (by simp) rfl,
      read_writeFields (field :: fields) (List.cons_ne_nil _ _)]
    rfl

theorem read_writeItems (items : List Document) (hne : items ≠ []) (outer : List Frame)
    (before : List Document) (inner level : Nat) (rest : List Char) :
    read ⟨.list before :: outer, none⟩ (writeItems inner items (newLine level (']' :: rest))) =
      read ⟨outer, some (.list (before.reverse ++ items))⟩ rest := by
  match items with
  | [] => exact absurd rfl hne
  | [item] =>
    rw [writeItems, read_newLine, read_write item, read_newLine]
    simp [read, step, Json.isBlank, leaveList]
  | item :: next :: items =>
    rw [writeItems, read_newLine, read_write item, read_step (by simp) (by simp) rfl,
      read_writeItems (next :: items) (List.cons_ne_nil _ _)]
    · simp
    · exact List.cons_ne_nil _ _

theorem read_writeFields (fields : List (String × Document)) (hne : fields ≠ [])
    (outer : List Frame) (before : List (String × Document)) (inner level : Nat)
    (rest : List Char) :
    read ⟨.record before none :: outer, none⟩
        (writeFields inner fields (newLine level ('}' :: rest))) =
      read ⟨outer, some (.record (before.reverse ++ fields))⟩ rest := by
  have hkey (key : String) (s : List Char) :
      read ⟨.record before none :: outer, none⟩ (writeString key (':' :: ' ' :: s)) =
        read ⟨.record before (some key) :: outer, none⟩ s := by
    simp [read_writeString, push, read, step, Json.isBlank, colon]
  match fields with
  | [] => exact absurd rfl hne
  | [(key, value)] =>
    rw [writeFields, read_newLine, hkey, read_write value, read_newLine]
    simp [read, step, Json.isBlank, leaveRecord]
  | (key, value) :: next :: fields =>
    rw [writeFields, read_newLine, hkey, read_write value, read_step (by simp) (by simp) rfl,
      read_writeFields (next :: fields) (List.cons_ne_nil _ _)]
    · simp
    · exact List.cons_ne_nil _ _

end

end Reader

/-- A written document is read back. -/
theorem ofString?_toString (d : Document) : ofString? d.toString = some d := by
  rw [ofString?, toString, String.toList_ofList, Reader.start, Reader.read_write]
  rfl

end Stencil.Document
