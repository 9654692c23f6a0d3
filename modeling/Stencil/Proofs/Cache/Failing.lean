import Stencil.Proofs.Cache.Reloading
set_option autoImplicit false

namespace Stencil.Cache

variable {c d : Cache} {fs : FileSystem} {e : CacheError}

inductive ParsesEach (fs : FileSystem) :
    Cache → List (Except FileError Path) → Cache → Prop where
  | nil (c : Cache) : ParsesEach fs c [] c
  | file {c d after : Cache} {path : Path} {rest : List (Except FileError Path)} {t : Template}
      (hp : fs.isFile path = true) (h : c.parseFile fs path = (.ok t, d))
      (hr : ParsesEach fs d rest after) : ParsesEach fs c (.ok path :: rest) after
  | other {c after : Cache} {path : Path} {rest : List (Except FileError Path)}
      (hp : fs.isFile path = false) (hr : ParsesEach fs c rest after) :
      ParsesEach fs c (.ok path :: rest) after

/-- What a pattern finds ends a load: a path that cannot be read, or a file that fails and leaves
the cache as it was. -/
inductive FailsAt (c : Cache) (fs : FileSystem) (pattern : String) :
    Except FileError Path → CacheError → Prop where
  | entry (error : FileError) :
      FailsAt c fs pattern (.error error) (.load (.unreadable pattern error))
  | file {path : Path} {e : CacheError} (hp : fs.isFile path = true)
      (he : c.parseFile fs path = (.error e, c)) : FailsAt c fs pattern (.ok path) e

/-- All that a load that fails can come to: the pattern is invalid, or something that it finds fails
after the files before it have been compiled. -/
inductive LoadFails (c : Cache) (fs : FileSystem) (pattern : String) :
    CacheError → Cache → Prop where
  | pattern {error : FileError} (h : fs.find pattern = .error error) :
      LoadFails c fs pattern (.load (.badPattern pattern error)) c
  | entry {before after : List (Except FileError Path)} {entry : Except FileError Path}
      {e : CacheError} {d : Cache} (hf : fs.find pattern = .ok (before ++ entry :: after))
      (hb : ParsesEach fs c before d) (he : d.FailsAt fs pattern entry e) :
      LoadFails c fs pattern e d

theorem eq_of_add_error {source : Source} {origin : Origin} {modified : Option Stamp}
    (h : c.add source origin modified = (.error e, d)) : d = c := by
  unfold add at h
  split at h
  · exact (Prod.mk.inj h).2.symm
  · simp at h

theorem eq_of_parseText_error {text : String} (h : c.parseText text = (.error e, d)) : d = c := by
  unfold parseText at h
  dsimp only at h
  split at h
  · simp at h
  · exact eq_of_add_error h

theorem eq_of_parseFile_error {path : Path} (h : c.parseFile fs path = (.error e, d)) :
    d = c := by
  unfold parseFile at h
  split at h
  · simp at h
  · split at h
    · exact (Prod.mk.inj h).2.symm
    · exact eq_of_add_error h

theorem eq_of_register_error {identity text : String}
    (h : c.register identity text = (.error e, d)) : d = c := by
  unfold register at h
  split at h
  · exact (Prod.mk.inj h).2.symm
  · exact eq_of_add_error h

theorem exists_failsAt {pattern : String} {count : Nat} {entries : List (Except FileError Path)}
    (h : c.parseFiles fs pattern count entries = (.error e, d)) :
    ∃ before entry after, entries = before ++ entry :: after ∧ ParsesEach fs c before d ∧
      d.FailsAt fs pattern entry e := by
  induction entries generalizing c count with
  | nil => simp [parseFiles] at h
  | cons first rest ih =>
    cases first with
    | error error =>
      obtain ⟨he, rfl⟩ := Prod.mk.inj h
      obtain rfl := Except.error.inj he
      exact ⟨[], .error error, rest, rfl, .nil c, .entry error⟩
    | ok found =>
      rw [parseFiles] at h
      split at h
      · rename_i hp
        split at h
        · rename_i e' c' hfirst
          obtain ⟨he, rfl⟩ := Prod.mk.inj h
          obtain rfl := Except.error.inj he
          obtain rfl := eq_of_parseFile_error hfirst
          exact ⟨[], .ok found, rest, rfl, .nil c', .file hp hfirst⟩
        · rename_i t c' hfirst
          obtain ⟨before, entry, after, rfl, hb, he⟩ := ih h
          exact ⟨.ok found :: before, entry, after, rfl, .file hp hfirst hb, he⟩
      · rename_i hp
        obtain ⟨before, entry, after, rfl, hb, he⟩ := ih h
        exact ⟨.ok found :: before, entry, after, rfl, .other (by simpa using hp) hb, he⟩

theorem loadFails_of_load_error {pattern : String} (h : c.load fs pattern = (.error e, d)) :
    c.LoadFails fs pattern e d := by
  unfold load at h
  split at h
  · rename_i error hf
    obtain ⟨he, rfl⟩ := Prod.mk.inj h
    obtain rfl := Except.error.inj he
    exact .pattern hf
  · rename_i entries hf
    obtain ⟨before, entry, after, rfl, hb, he⟩ := exists_failsAt h
    exact .entry hf hb he

theorem kept_of_reload_error {identity : String} (h : c.reload fs identity = (.error e, d)) :
    d = { c with failures := d.failures } ∧
      ∀ other, other ≠ identity → d.failures.find? other = c.failures.find? other := by
  have hr := c.reloads fs identity
  rw [h] at hr
  cases hr with
  | missing | unreachable => exact ⟨rfl, fun _ _ => rfl⟩
  | refused =>
    exact ⟨rfl, fun other hne => (c.find?_failures_refuse identity other _).trans (if_neg hne)⟩

structure Atomic (c : Cache) (fs : FileSystem) : Prop where
  parseText : ∀ text e d, c.parseText text = (.error e, d) → d = c
  parseFile : ∀ path e d, c.parseFile fs path = (.error e, d) → d = c
  register : ∀ identity text e d, c.register identity text = (.error e, d) → d = c
  reload : ∀ identity e d, c.reload fs identity = (.error e, d) →
    d = { c with failures := d.failures } ∧
      ∀ other, other ≠ identity → d.failures.find? other = c.failures.find? other
  load : ∀ pattern e d, c.load fs pattern = (.error e, d) → c.LoadFails fs pattern e d

/-- Whatever a cache holds and whatever the files are, a failed request leaves no traces. -/
theorem atomic_of_failure (c : Cache) (fs : FileSystem) : c.Atomic fs where
  parseText _ _ _ h := eq_of_parseText_error h
  parseFile _ _ _ h := eq_of_parseFile_error h
  register _ _ _ _ h := eq_of_register_error h
  reload _ _ _ h := kept_of_reload_error h
  load _ _ _ h := loadFails_of_load_error h

example :
    let a := Path.ofString "/a"
    let b := Path.ofString "/b"
    let fs := FileSystem.ofNodes [(a, .file "x" ⟨1⟩), (b, .file "\x7b% if %\x7d" ⟨1⟩)]
      [("/*", [a, b])]
    ((empty .standard).load fs "/*").1.toBool = false ∧
      ((empty .standard).load fs "/*").2.identities = ["/a"] := by decide +kernel

end Stencil.Cache
