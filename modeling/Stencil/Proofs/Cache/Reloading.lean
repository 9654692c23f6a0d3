import Stencil.Cache
set_option autoImplicit false

namespace Stencil

theorem Source.compile_eq_ok {s : Source} {t : Tree} (radius : Nat) :
    s.compile radius = .ok t ↔ s.parse = .ok t := by
  unfold compile
  cases s.parse with
  | error e => simp [mapError_error]
  | ok u => simp [mapError_ok]

namespace Cache

variable {c : Cache} {fs : FileSystem} {identity : String}

@[simp] theorem get?_put (c : Cache) (identity other : String) (t : Template) :
    (c.put identity t).get? other = if other = identity then some t else c.get? other :=
  Table.find?_insert c.templates identity other t

@[simp] theorem failures_put (c : Cache) (identity : String) (t : Template) :
    (c.put identity t).failures = c.failures := rfl

@[simp] theorem settings_put (c : Cache) (identity : String) (t : Template) :
    (c.put identity t).settings = c.settings := rfl

def refuse (c : Cache) (identity : String) (stamp : Stamp) : Cache :=
  { c with failures := c.failures.insert identity stamp }

def renew (c : Cache) (identity : String) (t : Template) : Cache :=
  { c.put identity t with failures := c.failures.erase identity }

@[simp] theorem get?_refuse (c : Cache) (identity other : String) (stamp : Stamp) :
    (c.refuse identity stamp).get? other = c.get? other := rfl

@[simp] theorem find?_failures_refuse (c : Cache) (identity other : String) (stamp : Stamp) :
    (c.refuse identity stamp).failures.find? other
      = if other = identity then some stamp else c.failures.find? other :=
  Table.find?_insert c.failures identity other stamp

@[simp] theorem get?_renew (c : Cache) (identity other : String) (t : Template) :
    (c.renew identity t).get? other = if other = identity then some t else c.get? other :=
  c.get?_put identity other t

@[simp] theorem find?_failures_renew (c : Cache) (identity other : String) (t : Template) :
    (c.renew identity t).failures.find? other
      = if other = identity then none else c.failures.find? other :=
  Table.find?_erase c.failures identity other

@[simp] theorem failedAt_iff {stamp : Stamp} :
    c.failedAt identity stamp = true ↔ c.failures.find? identity = some stamp := by
  simp [failedAt]

/-- The file of an identity has changed since the template was compiled, and this change has not
been refused already. -/
structure Outdated (c : Cache) (fs : FileSystem) (identity : String) (t : Template) (path : Path)
    (stamp : Stamp) : Prop where
  get : c.get? identity = some t
  origin : t.origin = .file path
  time : fs.stamp path = .ok stamp
  changed : t.modified ≠ some stamp
  unrefused : c.failures.find? identity ≠ some stamp

theorem mem_stale_iff :
    identity ∈ c.stale fs ↔ ∃ t path stamp, c.Outdated fs identity t path stamp := by
  have hmem : identity ∈ c.stale fs ↔
      ∃ t, c.get? identity = some t ∧ c.isStale fs identity t = true := by
    simp [stale, get?, Table.mem_entries_iff]
  rw [hmem]
  constructor
  · rintro ⟨t, hg, hs⟩
    unfold isStale at hs
    split at hs
    · simp at hs
    · simp at hs
    · rename_i path ho
      split at hs
      · simp at hs
      · rename_i stamp hstamp
        have htest : t.modified ≠ some stamp ∧ c.failures.find? identity ≠ some stamp := by
          simpa [failedAt] using hs
        exact ⟨t, path, stamp, hg, ho, hstamp, htest.1, htest.2⟩
  · rintro ⟨t, path, stamp, h⟩
    exact ⟨t, h.get, by simp [isStale, h.origin, h.time, failedAt, h.changed, h.unrefused]⟩

theorem nodup_stale (c : Cache) (fs : FileSystem) : (c.stale fs).Nodup :=
  c.templates.nodup.sublist (List.filter_sublist.map Prod.fst)

theorem Outdated.unique {t u : Template} {path other : Path} {stamp time : Stamp}
    (h : c.Outdated fs identity t path stamp) (h' : c.Outdated fs identity u other time) :
    u = t ∧ other = path ∧ time = stamp := by
  obtain rfl : u = t := Option.some.inj (h'.get.symm.trans h.get)
  obtain rfl : other = path := Origin.file.inj (h'.origin.symm.trans h.origin)
  exact ⟨rfl, rfl, Except.ok.inj (h'.time.symm.trans h.time)⟩

theorem recompile_eq_ok {path : Path} {source : Source} {tree : Tree} :
    c.recompile fs path = .ok (source, tree) ↔
      ∃ text, fs.read path = .ok text ∧ source = Source.ofFile path text ∧
        source.parse = .ok tree := by
  unfold recompile
  cases hr : fs.read path with
  | error e => simp
  | ok text =>
    dsimp only
    cases hp : (Source.ofFile path text).compile c.settings.contextRadius with
    | error d =>
      have hparse : (Source.ofFile path text).parse ≠ .ok tree := by
        rw [Ne, ← Source.compile_eq_ok c.settings.contextRadius, hp]
        simp
      simp only [reduceCtorEq, Except.ok.injEq, false_iff, not_exists, not_and]
      rintro _ rfl rfl
      exact hparse
    | ok t =>
      have hparse := (Source.compile_eq_ok _).1 hp
      simp only [Except.ok.injEq, Prod.mk.injEq]
      constructor
      · rintro ⟨rfl, rfl⟩
        exact ⟨text, rfl, rfl, hparse⟩
      · rintro ⟨_, rfl, rfl, h⟩
        exact ⟨rfl, Except.ok.inj (hparse.symm.trans h)⟩

/-- All that reloading an identity can come to. -/
inductive Reloads (c : Cache) (fs : FileSystem) (identity : String) :
    Except CacheError Bool → Cache → Prop where
  | missing (hg : c.get? identity = none) :
      Reloads c fs identity (.error (.notFound identity)) c
  | unbacked {t : Template} (hg : c.get? identity = some t)
      (ho : ∀ path, t.origin ≠ .file path) : Reloads c fs identity (.ok false) c
  | unreachable {t : Template} {path : Path} {e : FileError} (hg : c.get? identity = some t)
      (ho : t.origin = .file path) (hs : fs.stamp path = .error e) :
      Reloads c fs identity (.error (.file e)) c
  | current {t : Template} {path : Path} {stamp : Stamp} (hg : c.get? identity = some t)
      (ho : t.origin = .file path) (hs : fs.stamp path = .ok stamp)
      (hc : t.modified = some stamp ∨ c.failures.find? identity = some stamp) :
      Reloads c fs identity (.ok false) c
  | refused {t : Template} {path : Path} {stamp : Stamp} {e : CacheError}
      (h : c.Outdated fs identity t path stamp) (hr : c.recompile fs path = .error e) :
      Reloads c fs identity (.error e) (c.refuse identity stamp)
  | renewed {t : Template} {path : Path} {stamp : Stamp} {source : Source} {tree : Tree}
      (h : c.Outdated fs identity t path stamp) (hr : c.recompile fs path = .ok (source, tree)) :
      Reloads c fs identity (.ok true)
        (c.renew identity ⟨source, tree, .file path, some stamp, c.compiled⟩)

theorem reloads (c : Cache) (fs : FileSystem) (identity : String) :
    c.Reloads fs identity (c.reload fs identity).1 (c.reload fs identity).2 := by
  unfold reload
  split
  · rename_i hg
    exact .missing hg
  · rename_i t hg
    split
    · rename_i ho
      exact .unbacked hg (by simp [ho])
    · rename_i ho
      exact .unbacked hg (by simp [ho])
    · rename_i path ho
      split
      · rename_i e hs
        exact .unreachable hg ho hs
      · rename_i stamp hs
        split
        · rename_i hc
          exact .current hg ho hs (by simpa using hc)
        · rename_i hc
          have htest : t.modified ≠ some stamp ∧ c.failures.find? identity ≠ some stamp := by
            simpa using hc
          have h : c.Outdated fs identity t path stamp := ⟨hg, ho, hs, htest.1, htest.2⟩
          split
          · rename_i e hr
            exact .refused h hr
          · rename_i source tree hr
            rw [ho]
            exact .renewed h hr

structure SameKept (c d : Cache) (identity : String) : Prop where
  template : d.get? identity = c.get? identity
  failure : d.failures.find? identity = c.failures.find? identity

theorem reload_sameKept (c : Cache) (fs : FileSystem) {identity other : String}
    (h : other ≠ identity) : c.SameKept (c.reload fs identity).2 other := by
  have hr := c.reloads fs identity
  generalize (c.reload fs identity).1 = r, (c.reload fs identity).2 = d at hr
  cases hr with
  | missing | unbacked | unreachable | current => exact ⟨rfl, rfl⟩
  | refused => exact ⟨rfl, by simp [h]⟩
  | renewed => exact ⟨by simp [h], by simp [h]⟩

end Cache

end Stencil
