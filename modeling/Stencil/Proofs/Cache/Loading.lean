import Stencil.Proofs.Cache.Changes
import Stencil.Proofs.Cache.Failing
set_option autoImplicit false

namespace Stencil.Cache

variable {c d e : Cache} {fs : FileSystem}

def Within (c d : Cache) : Prop :=
  ∀ identity t, c.get? identity = some t → d.get? identity = some t

theorem Within.refl (c : Cache) : c.Within c := fun _ _ h => h

theorem Within.trans (h : c.Within d) (h' : d.Within e) : c.Within e :=
  fun identity t ht => h' identity t (h identity t ht)

theorem within_put {identity : String} (free : c.get? identity = none) (t : Template) :
    c.Within (c.put identity t) := by
  intro other u hu
  have hne : other ≠ identity := by
    rintro rfl
    simp [free] at hu
  rw [get?_put, if_neg hne, hu]

theorem within_add {source : Source} (free : c.get? source.identity = none) (origin : Origin)
    (modified : Option Stamp) : c.Within (c.add source origin modified).2 := by
  unfold add
  split
  · exact .refl c
  · exact within_put free _

theorem get?_of_add_ok {source : Source} {origin : Origin} {modified : Option Stamp} {t : Template}
    (h : c.add source origin modified = (.ok t, d)) : d.get? source.identity = some t := by
  unfold add at h
  split at h
  · simp at h
  · obtain ⟨ht, rfl⟩ := Prod.mk.inj h
    obtain rfl := Except.ok.inj ht
    rw [get?_put, if_pos rfl]

theorem parseFile_of_get? {path : Path} {t : Template} (h : c.get? path.display = some t) :
    c.parseFile fs path = (.ok t, c) := by
  rw [parseFile, h]

theorem within_parseFile (c : Cache) (fs : FileSystem) (path : Path) :
    c.Within (c.parseFile fs path).2 := by
  unfold parseFile
  split
  · exact .refl c
  · rename_i free
    split
    · exact .refl c
    · rename_i source stamp ho
      obtain ⟨-, text, -, rfl⟩ := (openFile_eq_ok fs).1 ho
      exact within_add free _ _

theorem get?_of_parseFile_ok {path : Path} {t : Template}
    (h : c.parseFile fs path = (.ok t, d)) : d.get? path.display = some t := by
  unfold parseFile at h
  split at h
  · rename_i u hg
    obtain ⟨hu, rfl⟩ := Prod.mk.inj h
    rw [hg, Except.ok.inj hu]
  · split at h
    · simp at h
    · rename_i source stamp ho
      obtain ⟨-, text, -, rfl⟩ := (openFile_eq_ok fs).1 ho
      exact get?_of_add_ok h

theorem within_parseFiles (c : Cache) (fs : FileSystem) (pattern : String) (count : Nat)
    (entries : List (Except FileError Path)) :
    c.Within (c.parseFiles fs pattern count entries).2 :=
  parseFiles_keeps (.refl c) count fun d path _ _ h => h.trans (d.within_parseFile fs path)

theorem parseFiles_again (c : Cache) (fs : FileSystem) (pattern : String) (count : Nat)
    (entries : List (Except FileError Path)) :
    (c.parseFiles fs pattern count entries).2.parseFiles fs pattern count entries
      = c.parseFiles fs pattern count entries := by
  induction entries generalizing c count with
  | nil => rfl
  | cons first rest ih =>
    cases first with
    | error e => rfl
    | ok path =>
      cases hp : fs.isFile path with
      | false => simp [parseFiles, hp, ih c count]
      | true =>
        obtain ⟨r, d, hfirst⟩ : ∃ r d, c.parseFile fs path = (r, d) := ⟨_, _, rfl⟩
        cases r with
        | error e =>
          -- a file that fails leaves the cache as it was, so it fails again
          obtain rfl := eq_of_parseFile_error hfirst
          simp [parseFiles, hp, hfirst]
        | ok t =>
          have hfound : (d.parseFiles fs pattern (count + 1) rest).2.get? path.display = some t :=
            d.within_parseFiles fs pattern (count + 1) rest _ t (get?_of_parseFile_ok hfirst)
          simp [parseFiles, hp, hfirst, parseFile_of_get? hfound, ih d (count + 1)]

/-- Whatever a pattern finds, a second load gives what the first one gave and leaves the cache as
the first one left it. -/
theorem load_again (c : Cache) (fs : FileSystem) :
    (∀ pattern count entries,
      (c.parseFiles fs pattern count entries).2.parseFiles fs pattern count entries
        = c.parseFiles fs pattern count entries) ∧
    ∀ pattern, (c.load fs pattern).2.load fs pattern = c.load fs pattern := by
  refine ⟨c.parseFiles_again fs, fun pattern => ?_⟩
  cases hf : fs.find pattern with
  | error e => simp [load, hf]
  | ok entries => simpa [load, hf] using c.parseFiles_again fs pattern 0 entries

example :
    let a := Path.ofString "/a"
    let b := Path.ofString "/b"
    let fs := FileSystem.ofNodes [(a, .file "x" ⟨1⟩), (b, .file "\x7b% if %\x7d" ⟨1⟩)]
      [("/*", [a, b])]
    let c := ((empty .standard).load fs "/*").2
    c.identities = ["/a"] ∧ (c.load fs "/*").1.toBool = false ∧
      (c.load fs "/*").2.identities = ["/a"] := by decide +kernel

end Stencil.Cache
