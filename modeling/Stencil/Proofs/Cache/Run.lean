import Stencil.Proofs.Cache.Changes
set_option autoImplicit false

namespace Stencil

/-- What can be asked of a cache. A watch that runs on while files change comes to reloads. -/
inductive Request where
  | parseText (text : String)
  | parseFile (path : Path)
  | register (identity text : String)
  | load (pattern : String)
  | loadAssets (assets : List (String × String))
  | reload (identity : String)
  | remove (identity : String)
  | clear
  | watch

def Request.perform (r : Request) (fs : FileSystem) (c : Cache) : Cache :=
  match r with
  | parseText text => (c.parseText text).2
  | parseFile path => (c.parseFile fs path).2
  | register identity text => (c.register identity text).2
  | load pattern => (c.load fs pattern).2
  | loadAssets assets => (c.loadAssets assets).2
  | reload identity => (c.reload fs identity).2
  | remove identity => c.remove identity
  | clear => c.clear
  | watch => c.settle fs

theorem Request.changes (r : Request) (fs : FileSystem) (c : Cache) :
    Cache.Changes fs c (r.perform fs c) := by
  cases r with
  | parseText text => exact c.changes_parseText fs text
  | parseFile path => exact c.changes_parseFile fs path
  | register identity text => exact c.changes_register fs identity text
  | load pattern => exact c.changes_load fs pattern
  | loadAssets assets => exact c.changes_loadAssets fs assets
  | reload identity => exact c.changes_reload fs identity
  | remove identity => exact .single (.remove c identity)
  | clear => exact .single (.clear c)
  | watch => exact c.changes_settle fs

structure World where
  cache : Cache
  files : FileSystem

/-- A request, or any change of the files: writing one, making a directory, removing one, or what
else befalls them. -/
inductive Event where
  | request (r : Request)
  | edit (change : FileSystem → FileSystem)

namespace World

def start (settings : Settings) (fs : FileSystem) : World := ⟨.empty settings, fs⟩

def step (w : World) : Event → World
  | .request r => { w with cache := r.perform w.files w.cache }
  | .edit change => { w with files := change w.files }

def run (w : World) (events : List Event) : World := events.foldl step w

def states (w : World) : List Event → List World
  | [] => [w]
  | e :: rest => w :: (w.step e).states rest

theorem run_mem_states (w : World) (events : List Event) : w.run events ∈ w.states events := by
  induction events generalizing w with
  | nil => simp [run, states]
  | cons e rest ih => exact List.mem_cons_of_mem _ (ih (w.step e))

end World

namespace Cache

variable {P : FileSystem → Prop} {c d : Cache} {fs : FileSystem}

/-- Every template was compiled from its origin under files with a given property, and every failure
belongs to the template of a file and to another time. -/
structure Kept (P : FileSystem → Prop) (c : Cache) : Prop where
  known : ∀ identity t, c.get? identity = some t → t.source.identity = identity
  taken : ∀ identity t, c.get? identity = some t → ∃ fs, P fs ∧ t.TakenFrom fs
  failed : ∀ identity stamp, c.failures.find? identity = some stamp →
    ∃ t path, c.get? identity = some t ∧ t.origin = .file path ∧ t.modified ≠ some stamp

theorem Kept.empty (settings : Settings) : (Cache.empty settings).Kept P :=
  ⟨by simp [Cache.empty, get?], by simp [Cache.empty, get?], by simp [Cache.empty]⟩

theorem Kept.identity_of_file (hk : c.Kept P) {identity : String} {path : Path} {t : Template}
    (hg : c.get? identity = some t) (ho : t.origin = .file path) : identity = path.display := by
  obtain ⟨fs, -, htaken⟩ := hk.taken identity t hg
  obtain ⟨text, stamp, -, -, hsource, -⟩ := htaken.of_file ho
  have hknown := hk.known identity t hg
  rw [hsource] at hknown
  exact hknown.symm

theorem Kept.set (hk : c.Kept P) {identity : String} {t : Template}
    (hid : t.source.identity = identity) (ht : ∃ fs, P fs ∧ t.TakenFrom fs)
    (hget : ∀ other, d.get? other = if other = identity then some t else c.get? other)
    (hnone : d.failures.find? identity = none)
    (hfail : ∀ other, other ≠ identity → d.failures.find? other = c.failures.find? other) :
    d.Kept P := by
  constructor
  · intro other u hu
    rw [hget] at hu
    split at hu
    · rename_i heq
      obtain rfl := Option.some.inj hu
      exact hid.trans heq.symm
    · exact hk.known other u hu
  · intro other u hu
    rw [hget] at hu
    split at hu
    · obtain rfl := Option.some.inj hu
      exact ht
    · exact hk.taken other u hu
  · intro other stamp hf
    by_cases heq : other = identity
    · rw [heq, hnone] at hf
      simp at hf
    · rw [hfail other heq] at hf
      rw [hget, if_neg heq]
      exact hk.failed other stamp hf

theorem Change.kept (h : Change fs c d) (hfs : P fs) (hk : c.Kept P) : d.Kept P := by
  cases h with
  | add free taken =>
    rename_i t
    refine hk.set rfl ⟨fs, hfs, taken⟩ (fun _ => get?_put _ _ _ _) ?_ fun _ _ => rfl
    -- a failure under a free identity would belong to a template there
    refine Option.eq_none_iff_forall_ne_some.2 fun stamp hf => ?_
    obtain ⟨u, -, hu, -⟩ := hk.failed _ stamp hf
    simp [free] at hu
  | renew h taken ho =>
    -- the old template has the path for its identity, and the fresh one has the same path
    obtain rfl := hk.identity_of_file h.get h.origin
    obtain ⟨text, stamp, -, -, hsource, -⟩ := taken.of_file ho
    refine hk.set (by rw [hsource]; rfl) ⟨fs, hfs, taken⟩ (fun _ => get?_renew _ _ _ _) (by simp) ?_
    intro other hne
    simp [hne]
  | refuse h =>
    refine ⟨hk.known, hk.taken, fun other stamp hf => ?_⟩
    rw [find?_failures_refuse] at hf
    split at hf
    · rename_i heq
      obtain rfl := Option.some.inj hf
      exact ⟨_, _, heq ▸ h.get, h.origin, h.changed⟩
    · exact hk.failed other stamp hf
  | remove identity =>
    refine ⟨fun other t ht => ?_, fun other t ht => ?_, fun other stamp hf => ?_⟩
    · rw [get?_remove] at ht
      exact hk.known other t (Option.ite_none_left_eq_some.1 ht).2
    · rw [get?_remove] at ht
      exact hk.taken other t (Option.ite_none_left_eq_some.1 ht).2
    · rw [find?_failures_remove] at hf
      obtain ⟨hne, hf⟩ := Option.ite_none_left_eq_some.1 hf
      rw [get?_remove, if_neg hne]
      exact hk.failed other stamp hf
  | clear => exact ⟨by simp, by simp, by simp⟩

theorem Changes.kept (h : Changes fs c d) (hfs : P fs) (hk : c.Kept P) : d.Kept P := by
  induction h with
  | refl => exact hk
  | tail _ hstep ih => exact hstep.kept hfs ih

end Cache

namespace World

variable {P : FileSystem → Prop} {w : World}

theorem step_kept (e : Event) (hfs : P w.files) (hk : w.cache.Kept P) :
    (w.step e).cache.Kept P := by
  cases e with
  | request r => exact (r.changes w.files w.cache).kept hfs hk
  | edit change => exact hk

theorem states_files {events : List Event} (hfs : P w.files)
    (hedit : ∀ change, .edit change ∈ events → ∀ fs, P fs → P (change fs)) :
    ∀ v ∈ w.states events, P v.files := by
  induction events generalizing w with
  | nil => simpa [states] using hfs
  | cons e rest ih =>
    have hstep : P (w.step e).files := by
      cases e with
      | request r => exact hfs
      | edit change => exact hedit change List.mem_cons_self w.files hfs
    simp only [states, List.forall_mem_cons]
    exact ⟨hfs, ih hstep fun change hm => hedit change (List.mem_cons_of_mem e hm)⟩

theorem states_kept {events : List Event} (hfs : ∀ v ∈ w.states events, P v.files)
    (hk : w.cache.Kept P) : ∀ v ∈ w.states events, v.cache.Kept P := by
  induction events generalizing w with
  | nil => simpa [states] using hk
  | cons e rest ih =>
    simp only [states, List.forall_mem_cons] at hfs ⊢
    exact ⟨hk, ih hfs.2 (w.step_kept e hfs.1 hk)⟩

theorem kept_run (settings : Settings) (fs : FileSystem) (events : List Event) :
    ((start settings fs).run events).cache.Kept fun _ => True :=
  states_kept (fun _ _ => trivial) (.empty settings) _ (run_mem_states _ events)

end World

structure Template.Sound (identity : String) (t : Template) : Prop where
  identity_eq : t.source.identity = identity
  tree : ∀ radius, t.source.compile radius = .ok t.tree
  file_iff_path : ∀ path, t.origin = .file path ↔ t.source.path = some path
  file_iff_time : (∃ path, t.origin = .file path) ↔ ∃ stamp, t.modified = some stamp
  file : ∀ path, t.origin = .file path → identity = path.display
  inline : t.origin = .inline → identity = Source.inlineIdentity t.source.text

theorem Template.TakenFrom.sound {t : Template} {fs : FileSystem} (h : t.TakenFrom fs) :
    t.Sound t.source.identity := by
  obtain ⟨source, tree, origin, modified, serial⟩ := t
  obtain ⟨hsupplied, hparsed⟩ := h
  have htree (radius : Nat) : source.compile radius = .ok tree :=
    (Source.compile_eq_ok radius).2 hparsed
  dsimp only at hsupplied
  cases hsupplied with
  | inline text =>
    exact ⟨rfl, htree, by simp [Source.ofString], by simp, by simp, fun _ => rfl⟩
  | embedded identity text =>
    exact ⟨rfl, htree, by simp [Source.named], by simp, by simp, by simp⟩
  | file hs hr =>
    exact ⟨rfl, htree, by simp [Source.ofFile], by simp, by simp [Source.ofFile], by simp⟩

/-- Every template is sound under its identity, and every failure belongs to a template that came
from a file and to another time than the one that the template has. -/
structure Cache.Sound (c : Cache) : Prop where
  templates : ∀ identity t, c.get? identity = some t → t.Sound identity
  failures : ∀ identity stamp, c.failures.find? identity = some stamp →
    ∃ t path, c.get? identity = some t ∧ t.origin = .file path ∧ t.modified ≠ some stamp

/-- However a run from an empty cache goes, it leaves the cache sound. -/
theorem World.sound_run (settings : Settings) (fs : FileSystem) (events : List Event) :
    ((World.start settings fs).run events).cache.Sound := by
  have hk := World.states_kept (P := fun _ => True) (fun _ _ => trivial) (.empty settings) _
    ((World.start settings fs).run_mem_states events)
  refine ⟨fun identity t ht => ?_, hk.failed⟩
  obtain ⟨fs, -, htaken⟩ := hk.taken identity t ht
  rw [← hk.known identity t ht]
  exact htaken.sound

end Stencil
