import Mathlib.Data.List.Nodup
import Stencil.Proofs.Cache.Loading
set_option autoImplicit false

namespace Stencil

def assetContent (asset : String × String) : Option (Source × Tree × Origin × Option Stamp) :=
  let source := Source.named asset.1 asset.2
  source.parse.toOption.map fun tree => (source, tree, .embedded, none)

/-- What the first asset of an identity that compiles is compiled to. -/
def firstContent (identity : String) (assets : List (String × String)) :
    Option (Source × Tree × Origin × Option Stamp) :=
  assets.findSome? fun a => if a.1 = identity then assetContent a else none

theorem firstContent_cons (identity : String) (a : String × String)
    (rest : List (String × String)) : firstContent identity (a :: rest)
      = (if a.1 = identity then assetContent a else none).or (firstContent identity rest) := by
  rw [firstContent, firstContent, List.findSome?_cons]
  cases if a.1 = identity then assetContent a else none <;> rfl

theorem firstContent_snoc (identity : String) (before : List (String × String))
    (a : String × String) : firstContent identity (before ++ [a])
      = (firstContent identity before).or (if a.1 = identity then assetContent a else none) := by
  simp [firstContent, List.findSome?_append]

theorem firstContent_eq_some_iff {assets : List (String × String)}
    (hn : (assets.map Prod.fst).Nodup) {identity : String}
    {content : Source × Tree × Origin × Option Stamp} :
    firstContent identity assets = some content ↔
      ∃ text, (identity, text) ∈ assets ∧ assetContent (identity, text) = some content := by
  have hfound {a : String × String} {content : Source × Tree × Origin × Option Stamp}
      (h : (if a.1 = identity then assetContent a else none) = some content) :
      ∃ text, a = (identity, text) ∧ assetContent (identity, text) = some content := by
    obtain ⟨rfl, hc⟩ := Option.ite_none_right_eq_some.1 h
    exact ⟨a.2, rfl, hc⟩
  constructor
  · intro h
    obtain ⟨a, ha, hif⟩ := List.exists_of_findSome?_eq_some h
    obtain ⟨text, rfl, hc⟩ := hfound hif
    exact ⟨text, ha, hc⟩
  · rintro ⟨text, ht, hc⟩
    have hsome : (firstContent identity assets).isSome = true :=
      List.findSome?_isSome_iff.2 ⟨(identity, text), ht, by simp [hc]⟩
    obtain ⟨other, hother⟩ := Option.isSome_iff_exists.1 hsome
    obtain ⟨a, ha, hif⟩ := List.exists_of_findSome?_eq_some hother
    obtain ⟨text', rfl, ho⟩ := hfound hif
    -- two assets of one identity are the same asset
    obtain rfl := (Prod.mk.inj (List.inj_on_of_nodup_map hn ha ht rfl)).2
    rw [hother, ← hc, ho]

theorem firstContent_perm {assets other : List (String × String)} (h : other.Perm assets)
    (hn : (assets.map Prod.fst).Nodup) (identity : String) :
    firstContent identity other = firstContent identity assets := by
  apply Option.ext
  intro content
  rw [firstContent_eq_some_iff hn, firstContent_eq_some_iff ((h.map Prod.fst).nodup_iff.2 hn)]
  simp [h.mem_iff]

namespace Cache

variable {c d : Cache}

/-- Whether an asset is registered after others: its identity is free, none before it has taken the
identity, and it compiles. -/
def admits (c : Cache) (before : List (String × String)) (asset : String × String) : Bool :=
  (c.get? asset.1).isNone && (firstContent asset.1 before).isNone && (assetContent asset).isSome

/-- The identities of the assets that are not registered, each asset judged by those before it. -/
def refusals (c : Cache) (before : List (String × String)) : List (String × String) → List String
  | [] => []
  | asset :: rest =>
    if c.admits before asset then refusals c (before ++ [asset]) rest
    else asset.1 :: refusals c (before ++ [asset]) rest

inductive Registers (c : Cache) (asset : String × String) :
    Except CacheError Template → Cache → Prop where
  | taken {t : Template} (hg : c.get? asset.1 = some t) :
      Registers c asset (.error (.duplicate asset.1)) c
  | invalid {d : Diagnostic} (hg : c.get? asset.1 = none) (hc : assetContent asset = none) :
      Registers c asset (.error (.invalid d)) c
  | added {t : Template} (hg : c.get? asset.1 = none) (hc : assetContent asset = some t.content) :
      Registers c asset (.ok t) (c.put asset.1 t)

theorem registers (c : Cache) (asset : String × String) :
    c.Registers asset (c.register asset.1 asset.2).1 (c.register asset.1 asset.2).2 := by
  unfold register
  cases hg : c.get? asset.1 with
  | some t =>
    have hc : c.contains asset.1 = true := by
      rw [contains, Table.contains, ← get?, hg]
      rfl
    rw [if_pos hc]
    exact .taken hg
  | none =>
    have hc : ¬ c.contains asset.1 = true := by
      rw [contains, Table.contains, ← get?, hg]
      simp
    rw [if_neg hc, add]
    split
    · rename_i d hd
      refine .invalid hg ?_
      cases hp : (Source.named asset.1 asset.2).parse with
      | error e => simp [assetContent, hp, Except.toOption]
      | ok tree => simp [(Source.compile_eq_ok _).2 hp] at hd
    · rename_i tree ht
      refine .added hg ?_
      simp [assetContent, (Source.compile_eq_ok _).1 ht, Except.toOption, Template.content]

theorem content_register (c : Cache) (asset : String × String) (identity : String) :
    ((c.register asset.1 asset.2).2.get? identity).map Template.content
      = ((c.get? identity).map Template.content).or
        (if asset.1 = identity then assetContent asset else none) := by
  have hr := c.registers asset
  generalize (c.register asset.1 asset.2).1 = r, (c.register asset.1 asset.2).2 = d at hr
  by_cases h : asset.1 = identity
  · subst h
    cases hr with
    | taken hg => simp [hg]
    | invalid hg hc => simp [hg, hc]
    | added hg hc => simp [hg, hc]
  · cases hr with
    | taken | invalid => simp [h]
    | added => simp [h, Ne.symm h]

theorem admits_of_register {before : List (String × String)}
    (h : ∀ identity, (d.get? identity).map Template.content
      = ((c.get? identity).map Template.content).or (firstContent identity before))
    (asset : String × String) :
    c.admits before asset = (d.register asset.1 asset.2).1.toBool := by
  have hfree := h asset.1
  have hr := d.registers asset
  generalize (d.register asset.1 asset.2).1 = r, (d.register asset.1 asset.2).2 = e at hr
  unfold admits
  cases hr with
  | taken hg =>
    rw [hg] at hfree
    cases hc : c.get? asset.1 <;> cases hf : firstContent asset.1 before <;>
      simp_all [Except.toBool]
  | invalid hg hc => simp [hc, Except.toBool]
  | added hg hc =>
    rw [hg] at hfree
    cases hc' : c.get? asset.1 <;> cases hf : firstContent asset.1 before <;>
      simp_all [Except.toBool]

theorem content_registerAll (c : Cache) (assets : List (String × String)) (identity : String) :
    ((c.registerAll assets).2.get? identity).map Template.content
      = ((c.get? identity).map Template.content).or (firstContent identity assets) := by
  induction assets generalizing c with
  | nil => simp [registerAll, firstContent]
  | cons asset rest ih =>
    have hfirst := c.content_register asset identity
    rw [firstContent_cons, ← Option.or_assoc, ← hfirst, registerAll]
    generalize c.register asset.1 asset.2 = first
    obtain ⟨e | t, d⟩ := first <;> exact ih d

theorem failed_registerAll {before : List (String × String)}
    (h : ∀ identity, (d.get? identity).map Template.content
      = ((c.get? identity).map Template.content).or (firstContent identity before))
    (assets : List (String × String)) :
    (d.registerAll assets).1 = c.refusals before assets := by
  induction assets generalizing d before with
  | nil => rfl
  | cons asset rest ih =>
    have hadmits := admits_of_register h asset
    have hnext (identity : String) :
        ((d.register asset.1 asset.2).2.get? identity).map Template.content
          = ((c.get? identity).map Template.content).or
            (firstContent identity (before ++ [asset])) := by
      rw [content_register, h, firstContent_snoc, Option.or_assoc]
    rw [registerAll, refusals, hadmits]
    generalize d.register asset.1 asset.2 = first at hnext
    obtain ⟨e | t, next⟩ := first
    · simp [Except.toBool, ih hnext]
    · simp [Except.toBool, ih hnext]

theorem within_register (c : Cache) (asset : String × String) :
    c.Within (c.register asset.1 asset.2).2 := by
  have hr := c.registers asset
  generalize (c.register asset.1 asset.2).1 = r, (c.register asset.1 asset.2).2 = d at hr
  cases hr with
  | taken | invalid => exact .refl c
  | added hg => exact within_put hg _

theorem within_registerAll (c : Cache) (assets : List (String × String)) :
    c.Within (c.registerAll assets).2 ∧ (c.registerAll assets).2.failures = c.failures ∧
      (c.registerAll assets).2.settings = c.settings := by
  refine registerAll_keeps (Q := fun d => c.Within d ∧ d.failures = c.failures ∧
    d.settings = c.settings) ⟨.refl c, rfl, rfl⟩ ?_
  rintro d asset - ⟨hwithin, hfailures, hsettings⟩
  have hr := d.registers asset
  have hnext := d.within_register asset
  generalize (d.register asset.1 asset.2).1 = r, (d.register asset.1 asset.2).2 = e at hr hnext
  cases hr <;> exact ⟨hwithin.trans hnext, hfailures, hsettings⟩

theorem loadAssets_eq (c : Cache) (assets : List (String × String)) :
    c.loadAssets assets = (match c.refusals [] assets with
      | [] => .ok assets.length
      | failed => .error (.load (.assets failed assets.length)), (c.registerAll assets).2) := by
  have hfailed : (c.registerAll assets).1 = c.refusals [] assets :=
    failed_registerAll (by simp [firstContent]) assets
  rw [← hfailed, ← snd_loadAssets, loadAssets]
  generalize c.registerAll assets = outcome
  obtain ⟨_ | ⟨identity, rest⟩, d⟩ := outcome <;> rfl

/-- What loading assets comes to: what was cached stays, a free identity gets the first asset that
compiles, those that are not registered are counted and named in their order, and where no identity
is given twice the order does not matter to the cache. -/
structure Embeds (c : Cache) (assets : List (String × String)) (r : Except CacheError Nat)
    (d : Cache) : Prop where
  kept : c.Within d
  free : ∀ identity, c.get? identity = none →
    (d.get? identity).map Template.content = firstContent identity assets
  rest : d.failures = c.failures ∧ d.settings = c.settings
  succeeds : c.refusals [] assets = [] → r = .ok assets.length
  fails : c.refusals [] assets ≠ [] → ∃ e, r = .error e ∧
    e = .load (.assets (c.refusals [] assets) assets.length) ∧
    e.message = "Template Load Error: " ++ (toString (c.refusals [] assets).length ++ " of " ++
      toString assets.length ++ " embedded templates failed: " ++
      ", ".intercalate (c.refusals [] assets))
  unordered : (assets.map Prod.fst).Nodup → ∀ other : List (String × String), other.Perm assets →
    ∀ identity, d.Alike (c.loadAssets other).2 identity

theorem embeds_loadAssets (c : Cache) (assets : List (String × String)) :
    c.Embeds assets (c.loadAssets assets).1 (c.loadAssets assets).2 := by
  obtain ⟨hwithin, hfailures, hsettings⟩ := c.within_registerAll assets
  rw [loadAssets_eq]
  refine ⟨hwithin, ?_, ⟨hfailures, hsettings⟩, ?_, ?_, ?_⟩
  · intro identity hg
    rw [content_registerAll, hg]
    rfl
  · intro h
    rw [h]
  · intro h
    refine ⟨_, ?_, rfl, rfl⟩
    obtain ⟨identity, rest, heq⟩ := List.exists_cons_of_ne_nil h
    rw [heq]
  · intro hn other h identity
    rw [loadAssets_eq]
    constructor
    · rw [content_registerAll, content_registerAll, firstContent_perm h hn]
    · rw [hfailures, (c.within_registerAll other).2.1]

example :
    let assets := [("a", "\x7b% if %\x7d"), ("a", "x"), ("b", "y"), ("a", "z"), ("b", "w")]
    ((empty .standard).loadAssets assets).1.toBool = false ∧
      (empty .standard).refusals [] assets = ["a", "a", "b"] ∧
      (firstContent "a" assets).map (·.1.text) = some "x" := by decide +kernel

end Cache

end Stencil
