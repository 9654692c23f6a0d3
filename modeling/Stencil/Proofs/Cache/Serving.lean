import Stencil.Proofs.Cache.Run
/-!
Which template a text is given. A text is looked up by its digest, and what stands there need not
be compiled from it: a text can be registered under the digest of another, a file can have such a
digest for its path, and two texts can share one. The text is served unless something of that kind
has happened, and then one of the requests of the run has brought the other text.
-/
set_option autoImplicit false

namespace Stencil

theorem Source.parse_of_text {s u : Source} (h : s.text = u.text) : s.parse = u.parse := by
  rw [parse, parse, h]

namespace Cache

variable {P : FileSystem → Prop} {c : Cache} {text : String}

/-- A text that is given a template is given one of its own: it has this text, and its tree is what
the text compiles to. -/
def Serves (c : Cache) (text : String) : Prop :=
  ∀ t, (c.parseText text).1 = .ok t →
    t.source.text = text ∧ ∀ radius, (Source.ofString text).compile radius = .ok t.tree

/-- The template of another text stands under the digest of a text. -/
def Displaced (c : Cache) (text : String) : Prop :=
  ∃ t, c.get? (Source.inlineIdentity text) = some t ∧ t.source.text ≠ text

theorem parseText_of_get? {t : Template} (h : c.get? (Source.inlineIdentity text) = some t) :
    c.parseText text = (.ok t, c) := by
  simp [parseText, Source.ofString, h]

theorem add_eq_ok {source : Source} {origin : Origin} {modified : Option Stamp} {t : Template}
    (h : (c.add source origin modified).1 = .ok t) :
    t.source = source ∧ source.parse = .ok t.tree := by
  unfold add at h
  split at h
  · simp at h
  · rename_i tree hc
    obtain rfl := Except.ok.inj h
    exact ⟨rfl, (Source.compile_eq_ok _).1 hc⟩

theorem Kept.serves_iff (hk : c.Kept P) : c.Serves text ↔ ¬ c.Displaced text := by
  constructor
  · rintro h ⟨t, hg, hne⟩
    have hok : (c.parseText text).1 = .ok t := by rw [parseText_of_get? hg]
    exact hne (h t hok).1
  · intro h t ht
    have hserved : t.source.text = text ∧ t.source.parse = .ok t.tree := by
      cases hg : c.get? (Source.inlineIdentity text) with
      | some u =>
        rw [parseText_of_get? hg] at ht
        obtain rfl := Except.ok.inj ht
        obtain ⟨fs, -, htaken⟩ := hk.taken _ u hg
        exact ⟨Classical.byContradiction fun hne => h ⟨u, hg, hne⟩, htaken.parsed⟩
      | none =>
        have hadd : (c.add (Source.ofString text) .inline none).1 = .ok t := by
          simpa [parseText, Source.ofString, hg] using ht
        obtain ⟨hsource, hparse⟩ := add_eq_ok hadd
        exact ⟨by rw [hsource]; rfl, hsource ▸ hparse⟩
    obtain ⟨htext, hparse⟩ := hserved
    refine ⟨htext, fun radius => (Source.compile_eq_ok radius).2 ?_⟩
    rw [← hparse]
    exact Source.parse_of_text htext.symm

def Sourced (B : Source → Prop) (c : Cache) : Prop :=
  ∀ identity t, c.get? identity = some t → B t.source

variable {B : Source → Prop} {fs : FileSystem}

theorem sourced_empty (settings : Settings) : Sourced B (Cache.empty settings) := by
  simp [Sourced, Cache.empty, get?]

theorem Sourced.add (h : Sourced B c) {source : Source} (hB : B source) (origin : Origin)
    (modified : Option Stamp) : Sourced B (c.add source origin modified).2 := by
  unfold Cache.add
  split
  · exact h
  · intro identity t ht
    rw [get?_put] at ht
    split at ht
    · obtain rfl := Option.some.inj ht
      exact hB
    · exact h identity t ht

theorem Sourced.parseText (h : Sourced B c) (hB : B (.ofString text)) :
    Sourced B (c.parseText text).2 := by
  unfold Cache.parseText
  dsimp only
  split
  · exact h
  · exact h.add hB _ _

theorem Sourced.parseFile (h : Sourced B c) {path : Path} (hB : ∀ text, B (.ofFile path text)) :
    Sourced B (c.parseFile fs path).2 := by
  unfold Cache.parseFile
  split
  · exact h
  · split
    · exact h
    · rename_i source stamp ho
      obtain ⟨-, text, -, rfl⟩ := (openFile_eq_ok fs).1 ho
      exact h.add (hB text) _ _

theorem Sourced.register (h : Sourced B c) {identity : String} (hB : B (.named identity text)) :
    Sourced B (c.register identity text).2 := by
  unfold Cache.register
  split
  · exact h
  · exact h.add hB _ _

theorem Sourced.load (h : Sourced B c) {pattern : String}
    (hB : ∀ entries, fs.find pattern = .ok entries → ∀ path, .ok path ∈ entries →
      fs.isFile path = true → ∀ text, B (.ofFile path text)) :
    Sourced B (c.load fs pattern).2 := by
  unfold Cache.load
  split
  · exact h
  · rename_i entries hf
    exact parseFiles_keeps h 0 fun d path hm hp hd =>
      Sourced.parseFile hd (hB entries hf path hm hp)

theorem Sourced.loadAssets (h : Sourced B c) {assets : List (String × String)}
    (hB : ∀ a ∈ assets, B (.named a.1 a.2)) : Sourced B (c.loadAssets assets).2 := by
  rw [snd_loadAssets]
  exact registerAll_keeps h fun d a hm hd => Sourced.register hd (hB a hm)

theorem Sourced.remove (h : Sourced B c) (identity : String) :
    Sourced B (c.remove identity) := by
  intro other t ht
  rw [get?_remove] at ht
  exact h other t (Option.ite_none_left_eq_some.1 ht).2

theorem Sourced.reload (h : Sourced B c) (hk : c.Kept P)
    (hB : ∀ path text other, B (.ofFile path text) → B (.ofFile path other)) (identity : String) :
    Sourced B (c.reload fs identity).2 := by
  have hr := c.reloads fs identity
  generalize (c.reload fs identity).1 = r, (c.reload fs identity).2 = d at hr
  cases hr with
  | missing | unbacked | unreachable | current | refused => exact h
  | @renewed t path stamp source tree hout hr =>
    obtain ⟨text, -, rfl, -⟩ := recompile_eq_ok.1 hr
    obtain ⟨gs, -, htaken⟩ := hk.taken identity t hout.get
    obtain ⟨old, time, -, -, hsource, -⟩ := htaken.of_file hout.origin
    have hold : B (.ofFile path old) := hsource ▸ h identity t hout.get
    intro other u hu
    rw [get?_renew] at hu
    split at hu
    · obtain rfl := Option.some.inj hu
      exact hB path old text hold
    · exact h other u hu

theorem Sourced.reloadAll (h : Sourced B c) (hk : c.Kept P) (hfs : P fs)
    (hB : ∀ path text other, B (.ofFile path text) → B (.ofFile path other))
    (order : List String) : Sourced B (c.reloadAll fs order) := by
  induction order generalizing c with
  | nil => exact h
  | cons identity rest ih =>
    exact ih (h.reload hk hB identity) ((c.changes_reload fs identity).kept hfs hk)

end Cache

namespace Request

/-- Under some files, a request brings a source into the cache. A file is brought with its path,
whatever its text is by the time it is read. -/
inductive Brings (fs : FileSystem) : Request → Source → Prop where
  | text (text : String) : Brings fs (.parseText text) (.ofString text)
  | file (path : Path) (text : String) : Brings fs (.parseFile path) (.ofFile path text)
  | named (identity text : String) : Brings fs (.register identity text) (.named identity text)
  | found {pattern : String} {path : Path} {entries : List (Except FileError Path)} (text : String)
      (hf : fs.find pattern = .ok entries) (hm : .ok path ∈ entries)
      (hp : fs.isFile path = true) : Brings fs (.load pattern) (.ofFile path text)
  | asset {assets : List (String × String)} {identity text : String}
      (ha : (identity, text) ∈ assets) : Brings fs (.loadAssets assets) (.named identity text)

/-- A request may put another text under the digest of a text. -/
def Displaces (r : Request) (fs : FileSystem) (text : String) : Prop :=
  ∃ source, r.Brings fs source ∧ source.identity = Source.inlineIdentity text ∧ source.text ≠ text

variable {B : Source → Prop} {P : FileSystem → Prop} {fs : FileSystem} {c : Cache} {r : Request}

theorem Brings.other {path : Path} {text : String} (h : r.Brings fs (.ofFile path text))
    (other : String) : r.Brings fs (.ofFile path other) := by
  generalize hs : Source.ofFile path text = source at h
  have hpath : some path = source.path := congrArg Source.path hs
  cases h with
  | text | named | asset => simp [Source.ofString, Source.named] at hpath
  | file =>
    obtain rfl := Option.some.inj hpath
    exact .file path other
  | found _ hf hm hp =>
    obtain rfl := Option.some.inj hpath
    exact .found other hf hm hp

theorem sourced_perform (r : Request) (hr : ∀ source, r.Brings fs source → B source)
    (hB : ∀ path text other, B (.ofFile path text) → B (.ofFile path other))
    (hk : c.Kept P) (hfs : P fs) (h : c.Sourced B) : (r.perform fs c).Sourced B := by
  cases r with
  | parseText text => exact h.parseText (hr _ (.text text))
  | parseFile path => exact h.parseFile fun text => hr _ (.file path text)
  | register identity text => exact h.register (hr _ (.named identity text))
  | load pattern =>
    exact h.load fun entries hf path hm hp text => hr _ (.found text hf hm hp)
  | loadAssets assets => exact h.loadAssets fun a ha => hr _ (.asset ha)
  | reload identity => exact h.reload hk hB identity
  | remove identity => exact h.remove identity
  | clear => exact Cache.sourced_empty c.settings
  | watch =>
    rw [perform, Cache.settle_eq]
    exact h.reloadAll hk hfs hB _

end Request

namespace World

variable {B : Source → Prop} {w : World}

/-- A request that a run has made brings a source, of the files as they were then. -/
def Brought (w : World) (events : List Event) (source : Source) : Prop :=
  ∃ before r after, events = before ++ .request r :: after ∧ r.Brings (w.run before).files source

theorem Brought.later {e : Event} {rest : List Event} {source : Source}
    (h : (w.step e).Brought rest source) : w.Brought (e :: rest) source := by
  obtain ⟨before, r, after, rfl, hb⟩ := h
  exact ⟨e :: before, r, after, rfl, hb⟩

theorem sourced_run {events : List Event} (hr : ∀ source, w.Brought events source → B source)
    (hB : ∀ path text other, B (.ofFile path text) → B (.ofFile path other))
    (hk : w.cache.Kept fun _ => True) (h : w.cache.Sourced B) : (w.run events).cache.Sourced B := by
  induction events generalizing w with
  | nil => exact h
  | cons e rest ih =>
    have hstep : (w.step e).cache.Sourced B := by
      cases e with
      | request r =>
        exact r.sourced_perform (fun source hb => hr source ⟨[], r, rest, rfl, hb⟩) hB hk trivial h
      | edit change => exact h
    exact ih (fun source hb => hr source hb.later) (w.step_kept e trivial hk) hstep

theorem sourced_brought (settings : Settings) (fs : FileSystem) (events : List Event) :
    ((start settings fs).run events).cache.Sourced ((start settings fs).Brought events) := by
  refine sourced_run (fun _ hb => hb) ?_ (.empty settings) (Cache.sourced_empty settings)
  rintro path text other ⟨before, r, after, he, hb⟩
  exact ⟨before, r, after, he, hb.other other⟩

/-- After every run, a text is served exactly when no template of another text stands under its
digest, and such a template is there only if a request has displaced the text. -/
theorem serves_iff_not_displaced (settings : Settings) (fs : FileSystem) (events : List Event)
    (text : String) :
    (((start settings fs).run events).cache.Serves text ↔
        ¬ ((start settings fs).run events).cache.Displaced text) ∧
      (((start settings fs).run events).cache.Displaced text →
        ∃ before r after, events = before ++ .request r :: after ∧
          r.Displaces ((start settings fs).run before).files text) := by
  have hk := kept_run settings fs events
  refine ⟨hk.serves_iff, ?_⟩
  rintro ⟨t, hg, hne⟩
  obtain ⟨before, r, after, he, hb⟩ := sourced_brought settings fs events _ t hg
  exact ⟨before, r, after, he, t.source, hb, hk.known _ t hg, hne⟩

theorem registered_not_served :
    ¬ ((start .standard .empty).run
      [.request (.register (Source.inlineIdentity "a") "b")]).cache.Serves "a" := by
  have hk := kept_run .standard .empty [.request (.register (Source.inlineIdentity "a") "b")]
  rw [hk.serves_iff, Classical.not_not]
  refine ⟨⟨.named (Source.inlineIdentity "a") "b", ⟨[.text "b"], none⟩, .embedded, none, 0⟩, ?_, ?_⟩
  · decide +kernel
  · decide

end World

end Stencil
