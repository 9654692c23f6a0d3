import Mathlib.Logic.Relation
import Stencil.Proofs.Cache.Settling
/-!
What an operation can do to a cache. Each one, whether it succeeds or not, comes to a chain of five
kinds of change, all of them made under the files as they are: a template is added where there is
none, an outdated one is renewed or refused, one is removed, all are removed.
-/
set_option autoImplicit false

namespace Stencil

/-- The source and the time that an origin has to give under some files. -/
inductive Origin.Supplies (fs : FileSystem) : Origin → Source → Option Stamp → Prop where
  | inline (text : String) : Supplies fs .inline (.ofString text) none
  | embedded (identity text : String) : Supplies fs .embedded (.named identity text) none
  | file {path : Path} {text : String} {stamp : Stamp} (hs : fs.stamp path = .ok stamp)
      (hr : fs.read path = .ok text) :
      Supplies fs (.file path) (.ofFile path text) (some stamp)

structure Template.TakenFrom (t : Template) (fs : FileSystem) : Prop where
  supplied : t.origin.Supplies fs t.source t.modified
  parsed : t.source.parse = .ok t.tree

theorem Template.TakenFrom.of_file {t : Template} {fs : FileSystem} {path : Path}
    (h : t.TakenFrom fs) (ho : t.origin = .file path) :
    ∃ text stamp, fs.stamp path = .ok stamp ∧ fs.read path = .ok text ∧
      t.source = .ofFile path text ∧ t.modified = some stamp := by
  obtain ⟨source, tree, origin, modified, serial⟩ := t
  obtain ⟨hsupplied, -⟩ := h
  dsimp only at hsupplied ho ⊢
  subst ho
  cases hsupplied with
  | file hs hr => exact ⟨_, _, hs, hr, rfl, rfl⟩

namespace Cache

@[simp] theorem get?_remove (c : Cache) (identity other : String) :
    (c.remove identity).get? other = if other = identity then none else c.get? other :=
  Table.find?_erase c.templates identity other

@[simp] theorem find?_failures_remove (c : Cache) (identity other : String) :
    (c.remove identity).failures.find? other
      = if other = identity then none else c.failures.find? other :=
  Table.find?_erase c.failures identity other

@[simp] theorem get?_clear (c : Cache) (identity : String) : c.clear.get? identity = none := rfl

@[simp] theorem find?_failures_clear (c : Cache) (identity : String) :
    c.clear.failures.find? identity = none := rfl

/-- What every file leaves true of a cache stays true when the files are compiled one after the
other, up to the first that fails. -/
theorem parseFiles_keeps {Q : Cache → Prop} {c : Cache} {fs : FileSystem} {pattern : String}
    {entries : List (Except FileError Path)} (hc : Q c) (count : Nat)
    (hfile : ∀ d path, .ok path ∈ entries → fs.isFile path = true → Q d →
      Q (d.parseFile fs path).2) : Q (c.parseFiles fs pattern count entries).2 := by
  induction entries generalizing c count with
  | nil => exact hc
  | cons first rest ih =>
    have hrest : ∀ d path, .ok path ∈ rest → fs.isFile path = true → Q d →
        Q (d.parseFile fs path).2 := fun d path hm => hfile d path (List.mem_cons_of_mem first hm)
    cases first with
    | error e => exact hc
    | ok path =>
      unfold parseFiles
      split
      · rename_i hp
        have hfirst := hfile c path List.mem_cons_self hp hc
        generalize c.parseFile fs path = first at hfirst
        obtain ⟨e | t, d⟩ := first
        · exact hfirst
        · exact ih hfirst (count + 1) hrest
      · exact ih hc count hrest

theorem registerAll_keeps {Q : Cache → Prop} {c : Cache} {assets : List (String × String)}
    (hc : Q c) (hasset : ∀ d, ∀ a ∈ assets, Q d → Q (d.register a.1 a.2).2) :
    Q (c.registerAll assets).2 := by
  induction assets generalizing c with
  | nil => exact hc
  | cons asset rest ih =>
    have hrest : ∀ d, ∀ a ∈ rest, Q d → Q (d.register a.1 a.2).2 :=
      fun d a hm => hasset d a (List.mem_cons_of_mem asset hm)
    have hfirst := hasset c asset List.mem_cons_self hc
    rw [registerAll]
    generalize c.register asset.1 asset.2 = first at hfirst
    obtain ⟨e | t, d⟩ := first <;> exact ih hfirst hrest

theorem snd_loadAssets (c : Cache) (assets : List (String × String)) :
    (c.loadAssets assets).2 = (c.registerAll assets).2 := by
  unfold loadAssets
  generalize c.registerAll assets = outcome
  obtain ⟨_ | ⟨identity, rest⟩, d⟩ := outcome <;> rfl

inductive Change (fs : FileSystem) : Cache → Cache → Prop where
  | add {c : Cache} {t : Template} (free : c.get? t.source.identity = none)
      (taken : t.TakenFrom fs) : Change fs c (c.put t.source.identity t)
  | renew {c : Cache} {identity : String} {path : Path} {t fresh : Template} {stamp : Stamp}
      (h : c.Outdated fs identity t path stamp) (taken : fresh.TakenFrom fs)
      (ho : fresh.origin = .file path) : Change fs c (c.renew identity fresh)
  | refuse {c : Cache} {identity : String} {path : Path} {t : Template} {stamp : Stamp}
      (h : c.Outdated fs identity t path stamp) : Change fs c (c.refuse identity stamp)
  | remove (c : Cache) (identity : String) : Change fs c (c.remove identity)
  | clear (c : Cache) : Change fs c c.clear

abbrev Changes (fs : FileSystem) : Cache → Cache → Prop := Relation.ReflTransGen (Change fs)

variable (c : Cache) (fs : FileSystem)

theorem changes_add {source : Source} {origin : Origin} {modified : Option Stamp}
    (free : c.get? source.identity = none) (h : origin.Supplies fs source modified) :
    Changes fs c (c.add source origin modified).2 := by
  unfold add
  split
  · exact .refl
  · rename_i tree hc
    let t : Template := ⟨source, tree, origin, modified, c.compiled⟩
    have taken : t.TakenFrom fs := ⟨h, (Source.compile_eq_ok _).1 hc⟩
    exact .single (.add (t := t) free taken)

theorem changes_parseText (text : String) : Changes fs c (c.parseText text).2 := by
  unfold parseText
  dsimp only
  split
  · exact .refl
  · rename_i free
    exact c.changes_add fs free (.inline text)

theorem openFile_eq_ok {path : Path} {source : Source} {stamp : Stamp} :
    openFile fs path = .ok (source, stamp) ↔
      fs.stamp path = .ok stamp ∧ ∃ text, fs.read path = .ok text ∧ source = .ofFile path text := by
  unfold openFile
  cases fs.stamp path with
  | error e => simp
  | ok time =>
    cases fs.read path with
    | error e => simp
    | ok text => simp [eq_comm, and_comm]

theorem changes_parseFile (path : Path) : Changes fs c (c.parseFile fs path).2 := by
  unfold parseFile
  split
  · exact .refl
  · rename_i free
    split
    · exact .refl
    · rename_i source stamp ho
      obtain ⟨hs, text, hr, rfl⟩ := (openFile_eq_ok fs).1 ho
      exact c.changes_add fs free (.file hs hr)

theorem changes_register (identity text : String) :
    Changes fs c (c.register identity text).2 := by
  unfold register
  split
  · exact .refl
  · rename_i hc
    have free : c.get? identity = none := by simpa [contains, Table.contains, get?] using hc
    exact c.changes_add fs free (.embedded identity text)

theorem changes_parseFiles (pattern : String) (count : Nat)
    (entries : List (Except FileError Path)) :
    Changes fs c (c.parseFiles fs pattern count entries).2 :=
  parseFiles_keeps .refl count fun d path _ _ h => h.trans (d.changes_parseFile fs path)

theorem changes_load (pattern : String) : Changes fs c (c.load fs pattern).2 := by
  unfold load
  split
  · exact .refl
  · exact c.changes_parseFiles fs pattern 0 _

theorem changes_loadAssets (assets : List (String × String)) :
    Changes fs c (c.loadAssets assets).2 := by
  rw [snd_loadAssets]
  exact registerAll_keeps .refl fun d asset _ h => h.trans (d.changes_register fs asset.1 asset.2)

theorem changes_reload (identity : String) : Changes fs c (c.reload fs identity).2 := by
  have hr := c.reloads fs identity
  generalize (c.reload fs identity).1 = r, (c.reload fs identity).2 = d at hr
  cases hr with
  | missing | unbacked | unreachable | current => exact .refl
  | refused h => exact .single (.refuse h)
  | renewed h hr =>
    obtain ⟨text, hread, rfl, hparse⟩ := recompile_eq_ok.1 hr
    exact .single (.renew h ⟨.file h.time hread, hparse⟩ rfl)

theorem changes_reloadAll (order : List String) : Changes fs c (c.reloadAll fs order) := by
  induction order generalizing c with
  | nil => exact .refl
  | cons identity rest ih => exact (c.changes_reload fs identity).trans (ih _)

theorem changes_settle : Changes fs c (c.settle fs) := by
  rw [settle_eq]
  exact c.changes_reloadAll fs _

end Cache

end Stencil
