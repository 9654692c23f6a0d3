import Stencil.Proofs.Cache.Settling
set_option autoImplicit false

namespace Stencil.Cache

variable {c : Cache} {fs : FileSystem} {identity : String}

theorem Outdated.reload_eq {t : Template} {path : Path} {stamp : Stamp}
    (h : c.Outdated fs identity t path stamp) : c.reload fs identity =
      match c.recompile fs path with
      | .error e => (.error e, c.refuse identity stamp)
      | .ok (source, tree) =>
        (.ok true, c.renew identity ⟨source, tree, .file path, some stamp, c.compiled⟩) := by
  have hold : ¬ ((t.modified == some stamp || c.failedAt identity stamp) = true) := by
    simp [h.changed, h.unrefused]
  simp only [reload, h.get, h.origin, h.time, if_neg hold]
  cases c.recompile fs path <;> rfl

theorem reload_of_not_stale (h : identity ∉ c.stale fs) : (c.reload fs identity).2 = c := by
  have hr := c.reloads fs identity
  generalize (c.reload fs identity).1 = r, (c.reload fs identity).2 = d at hr
  cases hr with
  | missing | unbacked | unreachable | current => rfl
  | refused hout | renewed hout => exact absurd (mem_stale_iff.2 ⟨_, _, _, hout⟩) h

theorem recompile_ne_notFound {path : Path} {name : String} {e : CacheError}
    (h : c.recompile fs path = .error e) : e ≠ .notFound name := by
  unfold recompile at h
  split at h
  · obtain rfl := Except.error.inj h
    simp
  · dsimp only at h
    split at h
    · obtain rfl := Except.error.inj h
      simp
    · simp at h

/-- The reload of an identity fails since the time of its file cannot be looked up. -/
def Timeless (c : Cache) (fs : FileSystem) (identity : String) : Prop :=
  ∃ t path e, c.get? identity = some t ∧ t.origin = .file path ∧ fs.stamp path = .error e ∧
    (c.reload fs identity).1 = .error (.file e)

/-- A reload goes as far as compiling: a template is there, its file has a time, and there is
something to do. -/
structure Tries (c : Cache) (fs : FileSystem) (identity : String) : Prop where
  found : ∀ name, (c.reload fs identity).1 ≠ .error (.notFound name)
  changed : (c.reload fs identity).1 ≠ .ok false
  timed : ¬ c.Timeless fs identity

theorem Outdated.tries {t : Template} {path : Path} {stamp : Stamp}
    (h : c.Outdated fs identity t path stamp) : c.Tries fs identity := by
  have htimed : ¬ c.Timeless fs identity := by
    rintro ⟨u, other, e, hg, ho, he, _⟩
    obtain rfl := Option.some.inj (hg.symm.trans h.get)
    obtain rfl := Origin.file.inj (ho.symm.trans h.origin)
    simp [h.time] at he
  have hr := h.reload_eq
  cases hc : c.recompile fs path with
  | error e =>
    rw [hc] at hr
    refine ⟨fun name hn => ?_, by simp [hr], htimed⟩
    rw [hr] at hn
    exact recompile_ne_notFound hc (Except.error.inj hn)
  | ok r =>
    rw [hc] at hr
    exact ⟨by simp [hr], by simp [hr], htimed⟩

theorem mem_stale_iff_tries : identity ∈ c.stale fs ↔ c.Tries fs identity := by
  constructor
  · intro h
    obtain ⟨t, path, stamp, hout⟩ := mem_stale_iff.1 h
    exact hout.tries
  · intro h
    obtain ⟨hfound, hchanged, htimed⟩ := h
    have hr := c.reloads fs identity
    generalize hfirst : (c.reload fs identity).1 = r at *
    generalize (c.reload fs identity).2 = d at hr
    cases hr with
    | missing hg => exact absurd rfl (hfound identity)
    | unbacked hg ho => exact absurd rfl hchanged
    | unreachable hg ho hs => exact absurd ⟨_, _, _, hg, ho, hs, hfirst⟩ htimed
    | current hg ho hs hc => exact absurd rfl hchanged
    | refused hout | renewed hout => exact mem_stale_iff.2 ⟨_, _, _, hout⟩

theorem not_stale_reload (c : Cache) (fs : FileSystem) (identity : String) :
    identity ∉ (c.reload fs identity).2.stale fs := by
  by_cases h : identity ∈ c.stale fs
  · exact (settled_reload h).not_stale
  · rwa [reload_of_not_stale h]

structure Agrees (c : Cache) (fs : FileSystem) : Prop where
  tries : ∀ identity, identity ∈ c.stale fs ↔ c.Tries fs identity
  recompiles : ∀ identity ∈ c.stale fs, ∃ t path, c.get? identity = some t ∧
    t.origin = .file path ∧
    (c.reload fs identity).1 = (c.recompile fs path).map fun _ => true
  once : (c.stale fs).Nodup
  done : ∀ identity, identity ∉ (c.reload fs identity).2.stale fs
  others : ∀ identity other, other ≠ identity →
    (other ∈ (c.reload fs identity).2.stale fs ↔ other ∈ c.stale fs)

/-- Whatever a cache holds and whatever the files are, what is stale is what a reload compiles. -/
theorem agrees_stale_reload (c : Cache) (fs : FileSystem) : c.Agrees fs where
  tries _ := mem_stale_iff_tries
  recompiles identity h := by
    obtain ⟨t, path, stamp, hout⟩ := mem_stale_iff.1 h
    refine ⟨t, path, hout.get, hout.origin, ?_⟩
    rw [hout.reload_eq]
    cases c.recompile fs path <;> rfl
  once := c.nodup_stale fs
  done := c.not_stale_reload fs
  others _ _ hne := (c.reload_sameKept fs hne).mem_stale_iff

end Stencil.Cache
