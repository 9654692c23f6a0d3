import Stencil.Proofs.Cache.Run
import Stencil.Proofs.Cache.Staleness
set_option autoImplicit false

namespace Stencil

namespace Cache

variable {c : Cache} {fs : FileSystem} {identity : String} {path : Path} {stamp : Stamp}

theorem parseFile_of_free (hg : c.get? path.display = none) (hs : fs.stamp path = .ok stamp) :
    c.parseFile fs path =
      match c.recompile fs path with
      | .error e => (.error e, c)
      | .ok (source, tree) =>
        let t : Template := ⟨source, tree, .file path, some stamp, c.compiled⟩
        (.ok t, c.put path.display t) := by
  unfold parseFile recompile
  rw [hg]
  dsimp only
  cases hr : fs.read path with
  | error e => simp [openFile, hs, hr]
  | ok text =>
    simp only [openFile, hs, hr, add]
    cases (Source.ofFile path text).compile c.settings.contextRadius <;> rfl

@[simp] theorem recompile_remove (c : Cache) (fs : FileSystem) (identity : String) (path : Path) :
    (c.remove identity).recompile fs path = c.recompile fs path := rfl

theorem alike_renew_remove (c : Cache) (identity other : String) (t : Template) :
    (c.renew identity t).Alike ((c.remove identity).put identity t) other := by
  constructor
  · rw [get?_renew, get?_put, get?_remove]
    split <;> rfl
  · rw [find?_failures_renew, failures_put, find?_failures_remove]

/-- The reload of an identity comes to what compiling its file would come to if the identity were
removed before. -/
structure ReloadsAfresh (c : Cache) (fs : FileSystem) (identity : String) (path : Path) : Prop where
  succeeds : (c.reload fs identity).1 = .ok true ↔
    ∃ t, ((c.remove identity).parseFile fs path).1 = .ok t
  renewed : ∀ t, ((c.remove identity).parseFile fs path).1 = .ok t →
    ((c.reload fs identity).2.get? identity).map Template.content = some t.content
  alike : ∀ t, ((c.remove identity).parseFile fs path).1 = .ok t → ∀ other,
    (c.reload fs identity).2.Alike ((c.remove identity).parseFile fs path).2 other
  fails : ∀ e, ((c.remove identity).parseFile fs path).1 = .error e →
    (c.reload fs identity).1 = .error e

theorem Outdated.reloadsAfresh {t : Template} (h : c.Outdated fs path.display t path stamp) :
    c.ReloadsAfresh fs path.display path := by
  have hreload := h.reload_eq
  have hparse := parseFile_of_free (c := c.remove path.display) (by simp) h.time
  rw [recompile_remove] at hparse
  cases hc : c.recompile fs path with
  | error e =>
    rw [hc] at hreload hparse
    constructor <;> simp [hreload, hparse]
  | ok r =>
    rw [hc] at hreload hparse
    refine ⟨by simp [hreload, hparse], ?_, ?_, by simp [hparse]⟩
    · intro u hu
      rw [hparse] at hu
      obtain rfl := Except.ok.inj hu
      simp [hreload]
      rfl
    · intro u _ other
      rw [hreload, hparse]
      exact c.alike_renew_remove path.display other _

end Cache

/-- In every run, the reload of a stale identity does what loading its file afresh would do. -/
theorem World.reloadsAfresh_of_stale (settings : Settings) (fs : FileSystem) (events : List Event)
    {identity : String}
    (h : identity ∈ ((start settings fs).run events).cache.stale
      ((start settings fs).run events).files) :
    ∃ t path, ((start settings fs).run events).cache.get? identity = some t ∧
      t.origin = .file path ∧
      ((start settings fs).run events).cache.ReloadsAfresh ((start settings fs).run events).files
        identity path := by
  obtain ⟨t, path, stamp, hout⟩ := Cache.mem_stale_iff.1 h
  -- a template of a file stands under its path, so the removal makes room for what is compiled
  obtain rfl := (kept_run settings fs events).identity_of_file hout.get hout.origin
  exact ⟨t, path, hout.get, hout.origin, hout.reloadsAfresh⟩

def rewrittenRun : List Event :=
  [.request (.parseFile (.ofString "/a")), .request (.parseFile (.ofString "./t/b")),
    .edit fun _ => Cache.editedPages]

def rewrittenWorld : World := (World.start .standard Cache.pages).run rewrittenRun

theorem reloadsAfresh_rewrittenWorld :
    "/a" ∈ rewrittenWorld.cache.stale rewrittenWorld.files ∧
      ∃ t path, rewrittenWorld.cache.get? "/a" = some t ∧ t.origin = .file path ∧
        rewrittenWorld.cache.ReloadsAfresh rewrittenWorld.files "/a" path := by
  have h : "/a" ∈ rewrittenWorld.cache.stale rewrittenWorld.files := by decide +kernel
  exact ⟨h, World.reloadsAfresh_of_stale .standard Cache.pages rewrittenRun h⟩

end Stencil
