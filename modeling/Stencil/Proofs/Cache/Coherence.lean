import Stencil.Proofs.Cache.Run
set_option autoImplicit false

namespace Stencil

namespace FileSystem

/-- No path shows two texts with one time. -/
def Agree (fs gs : FileSystem) : Prop :=
  ∀ path stamp text other, fs.stamp path = .ok stamp → gs.stamp path = .ok stamp →
    fs.read path = .ok text → gs.read path = .ok other → text = other

theorem mem_of_read_ofNodes {nodes : List (Path × Node)} {found : List (String × List Path)}
    {path : Path} {text : String} (h : (ofNodes nodes found).read path = .ok text) :
    ∃ stamp, (path, .file text stamp) ∈ nodes ∧ (ofNodes nodes found).stamp path = .ok stamp := by
  simp only [ofNodes] at h
  split at h
  · simp at h
  · simp at h
  · rename_i other stamp hn
    obtain rfl := Except.ok.inj h
    obtain ⟨before, after, rfl, -⟩ := List.lookup_eq_some_iff.1 hn
    exact ⟨stamp, by simp, by simp [ofNodes, hn, Node.modified]⟩

theorem agree_ofNodes {nodes others : List (Path × Node)}
    (h : ∀ e ∈ nodes, ∀ e' ∈ others, e.1 = e'.1 → e.2.modified = e'.2.modified → e.2 = e'.2)
    (found matched : List (String × List Path)) :
    (ofNodes nodes found).Agree (ofNodes others matched) := by
  intro path stamp text other hs hs' hr hr'
  obtain ⟨time, hm, ht⟩ := mem_of_read_ofNodes hr
  obtain ⟨time', hm', ht'⟩ := mem_of_read_ofNodes hr'
  obtain rfl : time = stamp := Except.ok.inj (ht.symm.trans hs)
  obtain rfl : time' = time := Except.ok.inj (ht'.symm.trans hs')
  exact (Node.file.inj (h _ hm _ hm' rfl rfl)).1

end FileSystem

/-- The template of a file that can be read is what the file holds now, unless it is stale or a
failure is noted for the time that the file has. -/
def World.Coherent (w : World) : Prop :=
  ∀ identity t path text, w.cache.get? identity = some t → t.origin = .file path →
    w.files.read path = .ok text → identity ∉ w.cache.stale w.files →
    (∀ stamp, w.files.stamp path = .ok stamp → w.cache.failures.find? identity ≠ some stamp) →
    t.source.text = text ∧ ∀ radius, (Source.ofFile path text).compile radius = .ok t.tree

theorem World.coherent_of_kept {w : World} {P : FileSystem → Prop} (hk : w.cache.Kept P)
    (hfs : ∀ fs, P fs → fs.Agree w.files) : w.Coherent := by
  intro identity t path text hg ho hr hfresh hunrefused
  obtain ⟨stamp, hs⟩ := w.files.timed path text hr
  obtain ⟨fs, hP, htaken⟩ := hk.taken identity t hg
  obtain ⟨old, time, htime, hread, hsource, hmodified⟩ := htaken.of_file ho
  -- a template of another time would be stale
  have hcurrent : t.modified = some stamp := by
    by_cases hc : t.modified = some stamp
    · exact hc
    · exact absurd (Cache.mem_stale_iff.2 ⟨t, path, stamp, hg, ho, hs, hc, hunrefused stamp hs⟩)
        hfresh
  obtain rfl : time = stamp := Option.some.inj (hmodified.symm.trans hcurrent)
  obtain rfl : old = text := hfs fs hP path time old text htime hs hread hr
  refine ⟨by rw [hsource]; rfl, fun radius => ?_⟩
  rw [← hsource]
  exact (Source.compile_eq_ok radius).2 htaken.parsed

/-- If the files of a run agree, then all states that the run goes through are coherent. -/
theorem World.coherent_of_agree {settings : Settings} {fs : FileSystem} {events : List Event}
    (h : ∀ v ∈ (World.start settings fs).states events,
      ∀ u ∈ (World.start settings fs).states events, v.files.Agree u.files) :
    ∀ w ∈ (World.start settings fs).states events, w.Coherent := by
  intro w hw
  let P (gs : FileSystem) : Prop := ∃ v ∈ (World.start settings fs).states events, v.files = gs
  have hk := World.states_kept (P := P) (fun v hv => ⟨v, hv, rfl⟩) (.empty settings) w hw
  refine World.coherent_of_kept hk ?_
  rintro _ ⟨v, hv, rfl⟩
  exact h v hv w hw

/-- One file under two spellings of its path, one from the root and one from the working directory,
or none. -/
def sharedNodes (node : Option Node) : List (Path × Node) :=
  node.toList.flatMap fun n => [(.ofString "/srv/d/a", n), (.ofString "d/a", n)]

def shared (node : Option Node) : FileSystem :=
  .ofNodes (sharedNodes node) [("/srv/*/a", node.toList.map fun _ => .ofString "/srv/d/a")]

def versions : List (Option Node) :=
  [none, some (.file "x" ⟨1⟩), some (.file "\x7b\x7b v \x7d\x7d" ⟨2⟩),
    some (.file "\x7b% if %\x7d" ⟨3⟩), some (.directory ⟨4⟩)]

def troubledRun : List Event :=
  let become (n : Nat) : Event := .edit fun _ => shared (versions.getD n none)
  [become 1, .request (.parseFile (.ofString "/srv/d/a")), .request (.load "/srv/*/a"),
    .request (.parseFile (.ofString "d/a")), become 2, .request (.reload "/srv/d/a"), become 3,
    .request .watch, become 0, .request (.reload "/srv/d/a"), become 4,
    .request (.remove "d/a"), .request (.loadAssets [("e", "y")])]

theorem shared_agree : ∀ n ∈ versions, ∀ m ∈ versions, (shared n).Agree (shared m) := by
  have h : ∀ n ∈ versions, ∀ m ∈ versions, ∀ e ∈ sharedNodes n, ∀ e' ∈ sharedNodes m,
      e.1 = e'.1 → e.2.modified = e'.2.modified → e.2 = e'.2 := by decide
  exact fun n hn m hm => FileSystem.agree_ofNodes (h n hn m hm) _ _

theorem troubledRun_files : ∀ v ∈ (World.start .standard (shared none)).states troubledRun,
    ∃ n ∈ versions, v.files = shared n := by
  refine World.states_files (P := fun fs => ∃ n ∈ versions, fs = shared n)
    ⟨none, by simp [versions], rfl⟩ fun change hm _ _ => ?_
  simp only [troubledRun, List.mem_cons, Event.edit.injEq, reduceCtorEq, false_or, or_false,
    List.not_mem_nil] at hm
  rcases hm with rfl | rfl | rfl | rfl | rfl <;> exact ⟨_, by simp [versions], rfl⟩

theorem troubledRun_coherent :
    (∀ v ∈ (World.start .standard (shared none)).states troubledRun,
      ∀ u ∈ (World.start .standard (shared none)).states troubledRun, v.files.Agree u.files) ∧
    ∀ w ∈ (World.start .standard (shared none)).states troubledRun, w.Coherent := by
  have h : ∀ v ∈ (World.start .standard (shared none)).states troubledRun,
      ∀ u ∈ (World.start .standard (shared none)).states troubledRun, v.files.Agree u.files := by
    intro v hv u hu
    obtain ⟨n, hn, hvn⟩ := troubledRun_files v hv
    obtain ⟨m, hm, hum⟩ := troubledRun_files u hu
    rw [hvn, hum]
    exact shared_agree n hn m hm
  exact ⟨h, World.coherent_of_agree h⟩

end Stencil
