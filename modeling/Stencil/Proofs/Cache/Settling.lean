import Stencil.Watch
import Stencil.Proofs.Cache.Reloading
set_option autoImplicit false

namespace Stencil

def Template.content (t : Template) : Source × Tree × Origin × Option Stamp :=
  (t.source, t.tree, t.origin, t.modified)

namespace Cache

variable {c d e : Cache} {fs : FileSystem} {identity : String}

def reloadAll (c : Cache) (fs : FileSystem) (order : List String) : Cache :=
  order.foldl (fun c identity => (c.reload fs identity).2) c

theorem settle_eq (c : Cache) (fs : FileSystem) : c.settle fs = c.reloadAll fs (c.stale fs) := rfl

/-- Two caches that keep the same under an identity, up to the serial. -/
structure Alike (c d : Cache) (identity : String) : Prop where
  template : (c.get? identity).map Template.content = (d.get? identity).map Template.content
  failure : c.failures.find? identity = d.failures.find? identity

def Broken (c : Cache) (fs : FileSystem) (path : Path) : Prop :=
  (∃ e, fs.read path = .error e) ∨
    ∃ text d, fs.read path = .ok text ∧
      (Source.ofFile path text).compile c.settings.contextRadius = .error d

/-- What has become of a stale identity: its template is what the file is compiled to, or the old
one with the failure noted. -/
inductive Settled (c d : Cache) (fs : FileSystem) (identity : String) : Prop where
  | renewed {t : Template} {path : Path} {text : String} {stamp : Stamp} {tree : Tree}
      {serial : Nat} (h : c.Outdated fs identity t path stamp) (hr : fs.read path = .ok text)
      (hc : (Source.ofFile path text).compile c.settings.contextRadius = .ok tree)
      (hg : d.get? identity = some ⟨.ofFile path text, tree, .file path, some stamp, serial⟩)
      (hf : d.failures.find? identity = none) : Settled c d fs identity
  | refused {t : Template} {path : Path} {stamp : Stamp}
      (h : c.Outdated fs identity t path stamp) (hb : c.Broken fs path)
      (hg : d.get? identity = some t) (hf : d.failures.find? identity = some stamp) :
      Settled c d fs identity

theorem broken_of_recompile {path : Path} {e : CacheError}
    (h : c.recompile fs path = .error e) : c.Broken fs path := by
  unfold recompile at h
  split at h
  · rename_i e hr
    exact .inl ⟨e, hr⟩
  · rename_i text hr
    dsimp only at h
    split at h
    · rename_i d hd
      exact .inr ⟨text, d, hr, hd⟩
    · simp at h

theorem not_broken {path : Path} {text : String} {tree : Tree} (hr : fs.read path = .ok text)
    (hc : (Source.ofFile path text).compile c.settings.contextRadius = .ok tree) :
    ¬ c.Broken fs path := by
  rintro (⟨e, he⟩ | ⟨other, d, ho, hd⟩)
  · simp [hr] at he
  · obtain rfl := Except.ok.inj (hr.symm.trans ho)
    simp [hc] at hd

theorem Broken.settings {path : Path} (h : d.Broken fs path) (hs : d.settings = c.settings) :
    c.Broken fs path := by
  unfold Broken at h ⊢
  rwa [hs] at h

theorem settled_reload (h : identity ∈ c.stale fs) :
    c.Settled (c.reload fs identity).2 fs identity := by
  obtain ⟨t, path, stamp, h⟩ := mem_stale_iff.1 h
  have hr := c.reloads fs identity
  generalize (c.reload fs identity).1 = r, (c.reload fs identity).2 = d at hr
  cases hr with
  | missing hg => simp [h.get] at hg
  | unbacked hg ho =>
    obtain rfl := Option.some.inj (hg.symm.trans h.get)
    exact absurd h.origin (ho path)
  | unreachable hg ho hs =>
    obtain rfl := Option.some.inj (hg.symm.trans h.get)
    obtain rfl := Origin.file.inj (ho.symm.trans h.origin)
    simp [h.time] at hs
  | current hg ho hs hc =>
    obtain rfl := Option.some.inj (hg.symm.trans h.get)
    obtain rfl := Origin.file.inj (ho.symm.trans h.origin)
    obtain rfl := Except.ok.inj (hs.symm.trans h.time)
    exact (hc.elim h.changed h.unrefused).elim
  | refused h hr => exact .refused h (broken_of_recompile hr) (by simpa using h.get) (by simp)
  | renewed h hr =>
    obtain ⟨text, hread, rfl, hparse⟩ := recompile_eq_ok.1 hr
    exact .renewed h hread ((Source.compile_eq_ok _).2 hparse) (by simp; rfl) (by simp)

theorem SameKept.refl (c : Cache) (identity : String) : c.SameKept c identity := ⟨rfl, rfl⟩

theorem SameKept.trans (h : c.SameKept d identity) (h' : d.SameKept e identity) :
    c.SameKept e identity :=
  ⟨h'.template.trans h.template, h'.failure.trans h.failure⟩

theorem SameKept.outdated_iff (h : c.SameKept d identity) {t : Template} {path : Path}
    {stamp : Stamp} :
    d.Outdated fs identity t path stamp ↔ c.Outdated fs identity t path stamp := by
  obtain ⟨htemplate, hfailure⟩ := h
  constructor
  · rintro ⟨hg, ho, hs, hc, hu⟩
    exact ⟨htemplate ▸ hg, ho, hs, hc, hfailure ▸ hu⟩
  · rintro ⟨hg, ho, hs, hc, hu⟩
    exact ⟨htemplate ▸ hg, ho, hs, hc, hfailure ▸ hu⟩

theorem SameKept.mem_stale_iff (h : c.SameKept d identity) :
    identity ∈ d.stale fs ↔ identity ∈ c.stale fs := by
  simp only [Cache.mem_stale_iff, h.outdated_iff]

theorem Settled.before (h : d.Settled e fs identity) (hk : c.SameKept d identity)
    (hs : d.settings = c.settings) : c.Settled e fs identity := by
  cases h with
  | renewed h hr hc hg hf => exact .renewed (hk.outdated_iff.1 h) hr (hs ▸ hc) hg hf
  | refused h hb hg hf => exact .refused (hk.outdated_iff.1 h) (hb.settings hs) hg hf

theorem Settled.after (h : c.Settled d fs identity) (hk : d.SameKept e identity) :
    c.Settled e fs identity := by
  cases h with
  | renewed h hr hc hg hf =>
    exact .renewed h hr hc (hk.template.trans hg) (hk.failure.trans hf)
  | refused h hb hg hf => exact .refused h hb (hk.template.trans hg) (hk.failure.trans hf)

theorem Settled.not_stale (h : c.Settled d fs identity) : identity ∉ d.stale fs := by
  intro hm
  obtain ⟨u, other, time, h'⟩ := Cache.mem_stale_iff.1 hm
  cases h with
  | renewed h hr hc hg hf =>
    obtain rfl := Option.some.inj (hg.symm.trans h'.get)
    obtain rfl := Origin.file.inj h'.origin
    exact h'.changed (congrArg some (Except.ok.inj (h.time.symm.trans h'.time)))
  | refused h hb hg hf =>
    obtain rfl := Option.some.inj (hg.symm.trans h'.get)
    obtain rfl := Origin.file.inj (h.origin.symm.trans h'.origin)
    obtain rfl := Except.ok.inj (h.time.symm.trans h'.time)
    exact h'.unrefused hf

theorem Settled.alike (h : c.Settled d fs identity) (h' : c.Settled e fs identity) :
    d.Alike e identity := by
  cases h with
  | renewed h hr hc hg hf =>
    cases h' with
    | renewed h' hr' hc' hg' hf' =>
      obtain ⟨rfl, rfl, rfl⟩ := h.unique h'
      obtain rfl := Except.ok.inj (hr.symm.trans hr')
      obtain rfl := Except.ok.inj (hc.symm.trans hc')
      exact ⟨by simp [hg, hg', Template.content], hf.trans hf'.symm⟩
    | refused h' hb' hg' hf' =>
      obtain ⟨rfl, rfl, rfl⟩ := h.unique h'
      exact absurd hb' (not_broken hr hc)
  | refused h hb hg hf =>
    cases h' with
    | renewed h' hr' hc' hg' hf' =>
      obtain ⟨rfl, rfl, rfl⟩ := h.unique h'
      exact absurd hb (not_broken hr' hc')
    | refused h' hb' hg' hf' =>
      obtain ⟨rfl, rfl, rfl⟩ := h.unique h'
      exact ⟨by rw [hg, hg'], hf.trans hf'.symm⟩

theorem settings_reload (c : Cache) (fs : FileSystem) (identity : String) :
    (c.reload fs identity).2.settings = c.settings := by
  have hr := c.reloads fs identity
  generalize (c.reload fs identity).1 = r, (c.reload fs identity).2 = d at hr
  cases hr <;> rfl

theorem sameKept_reloadAll {order : List String} (h : identity ∉ order) :
    c.SameKept (c.reloadAll fs order) identity := by
  induction order generalizing c with
  | nil => exact .refl c identity
  | cons first rest ih =>
    have hfirst := c.reload_sameKept fs (List.ne_of_not_mem_cons h)
    exact hfirst.trans (ih (List.not_mem_of_not_mem_cons h))

theorem settled_reloadAll {order : List String} (hn : order.Nodup) (hm : identity ∈ order)
    (hs : identity ∈ c.stale fs) : c.Settled (c.reloadAll fs order) fs identity := by
  induction order generalizing c with
  | nil => simp at hm
  | cons first rest ih =>
    obtain ⟨hfirst, hrest⟩ := List.nodup_cons.1 hn
    by_cases heq : identity = first
    · subst heq
      -- none of the later reloads comes back to it
      exact (settled_reload hs).after (sameKept_reloadAll hfirst)
    · -- the reload of another identity leaves it stale
      have hkept : c.SameKept (c.reload fs first).2 identity := c.reload_sameKept fs heq
      have hrest := ih hrest ((List.mem_cons.1 hm).resolve_left heq) (hkept.mem_stale_iff.2 hs)
      exact hrest.before hkept (c.settings_reload fs first)

theorem reloadAll_alike {order other : List String} (h : order.Perm (c.stale fs))
    (h' : other.Perm (c.stale fs)) (identity : String) :
    (c.reloadAll fs order).Alike (c.reloadAll fs other) identity := by
  by_cases hs : identity ∈ c.stale fs
  · have hsettled {order : List String} (h : order.Perm (c.stale fs)) :
        c.Settled (c.reloadAll fs order) fs identity :=
      settled_reloadAll (h.nodup_iff.2 (c.nodup_stale fs)) (h.mem_iff.2 hs) hs
    exact (hsettled h).alike (hsettled h')
  · have hfirst : c.SameKept (c.reloadAll fs order) identity :=
      sameKept_reloadAll fun hm => hs (h.mem_iff.1 hm)
    have hsecond : c.SameKept (c.reloadAll fs other) identity :=
      sameKept_reloadAll fun hm => hs (h'.mem_iff.1 hm)
    exact ⟨by rw [hfirst.template, hsecond.template], hfirst.failure.trans hsecond.failure.symm⟩

/-- What a watch leaves behind does not depend on the order in which it finds what is stale. -/
theorem settle_alike {order : List String} (h : order.Perm (c.stale fs)) (identity : String) :
    (c.settle fs).Alike (c.reloadAll fs order) identity := by
  rw [settle_eq]
  exact reloadAll_alike (.refl _) h identity

/-- Reloads in some order settle a cache: no other order ends in another cache, nothing is stale
any more, what was not stale is unchanged, and what was stale is renewed or refused. -/
structure Settles (c : Cache) (fs : FileSystem) (order : List String) : Prop where
  alike : ∀ other : List String, other.Perm (c.stale fs) →
    ∀ identity, (c.reloadAll fs order).Alike (c.reloadAll fs other) identity
  current : (c.reloadAll fs order).stale fs = []
  unchanged : ∀ identity, identity ∉ c.stale fs → c.SameKept (c.reloadAll fs order) identity
  settled : ∀ identity, identity ∈ c.stale fs → c.Settled (c.reloadAll fs order) fs identity

/-- Reloading the stale identities, in whatever order, settles the cache. -/
theorem settles_reloadAll {order : List String} (h : order.Perm (c.stale fs)) :
    c.Settles fs order := by
  have hunchanged (identity : String) (hn : identity ∉ c.stale fs) :
      c.SameKept (c.reloadAll fs order) identity :=
    sameKept_reloadAll fun hm => hn (h.mem_iff.1 hm)
  have hsettled (identity : String) (hs : identity ∈ c.stale fs) :
      c.Settled (c.reloadAll fs order) fs identity :=
    settled_reloadAll (h.nodup_iff.2 (c.nodup_stale fs)) (h.mem_iff.2 hs) hs
  refine ⟨fun other h' => reloadAll_alike h h', ?_, hunchanged, hsettled⟩
  refine List.eq_nil_iff_forall_not_mem.2 fun identity hm => ?_
  by_cases hs : identity ∈ c.stale fs
  · exact (hsettled identity hs).not_stale hm
  · exact hs ((hunchanged identity hs).mem_stale_iff.1 hm)

def pages : FileSystem :=
  .ofNodes [(.ofString "/a", .file "x" ⟨1⟩), (.ofString "./t/b", .file "y" ⟨1⟩)] []

def editedPages : FileSystem :=
  .ofNodes [(.ofString "/a", .file "\x7b\x7b v \x7d\x7d" ⟨2⟩),
    (.ofString "./t/b", .file "\x7b% if %\x7d" ⟨2⟩)] []

def pageCache : Cache :=
  let c := ((empty .standard).parseText "z").2
  ((c.parseFile pages (.ofString "/a")).2.parseFile pages (.ofString "./t/b")).2

theorem settles_pageCache :
    ["/a", "./t/b"].Perm (pageCache.stale editedPages) ∧
      pageCache.Settles editedPages ["/a", "./t/b"] := by
  have h : ["/a", "./t/b"].Perm (pageCache.stale editedPages) := by
    rw [show pageCache.stale editedPages = ["./t/b", "/a"] by decide +kernel]
    exact .swap _ _ _
  exact ⟨h, settles_reloadAll h⟩

end Cache

end Stencil
