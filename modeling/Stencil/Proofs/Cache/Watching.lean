import Stencil.Proofs.Cache.Staleness
/-!
A watch at work, in whatever order its ticker, its worker and the changes of the files come. The
marks are those of the identities that are about to be queued, queued or reloaded, each of them
once, so nothing is queued twice or while it is reloaded. Once the files stay as they are, what has
been compiled again is up to date, and no further reload does anything.
-/
set_option autoImplicit false

namespace Stencil

def Ticker.held : Ticker → List String
  | scanning _ => []
  | offering identity _ | withdrawing identity => [identity]

def Ticker.rest : Ticker → List String
  | scanning rest | offering _ rest => rest
  | withdrawing _ => []

def Worker.held : Worker → List String
  | free => []
  | reloading identity | releasing identity => [identity]

namespace Watch

variable {v w : Watch} {capacity : Nat} {identity : String}

/-- All identities that are on their way from the ticker through the queue to the worker. -/
def held (w : Watch) : List String := w.ticker.held ++ w.queue ++ w.worker.held

/-- The queue has kept to its size; each identity is on its way once, and these identities are the
marked ones. -/
structure Orderly (capacity : Nat) (w : Watch) : Prop where
  size : w.capacity = capacity
  room : w.queue.length ≤ w.capacity
  once : w.held.Nodup
  marked : ∀ identity, identity ∈ w.marked ↔ identity ∈ w.held

theorem orderly_start (queueCapacity : Nat) : (start queueCapacity).Orderly (max queueCapacity 1) :=
  ⟨rfl, Nat.zero_le _, List.nodup_nil, by simp [start, held, Ticker.held, Worker.held]⟩

theorem Orderly.pass (h : w.Orderly capacity) (hsize : v.capacity = w.capacity)
    (hroom : v.queue.length ≤ w.capacity) (hheld : v.held.Perm w.held)
    (hmarked : v.marked = w.marked) : v.Orderly capacity where
  size := hsize.trans h.size
  room := hsize ▸ hroom
  once := hheld.nodup_iff.2 h.once
  marked identity := by rw [hmarked, h.marked, hheld.mem_iff]

theorem Orderly.enter (h : w.Orderly capacity) (hn : identity ∉ w.marked)
    (hsize : v.capacity = w.capacity) (hqueue : v.queue = w.queue)
    (hheld : v.held.Perm (identity :: w.held)) (hmarked : v.marked = identity :: w.marked) :
    v.Orderly capacity where
  size := hsize.trans h.size
  room := by rw [hqueue, hsize]; exact h.room
  once := hheld.nodup_iff.2 (List.nodup_cons.2 ⟨fun hm => hn ((h.marked _).2 hm), h.once⟩)
  marked other := by rw [hmarked, hheld.mem_iff, List.mem_cons, List.mem_cons, h.marked]

theorem Orderly.leave (h : w.Orderly capacity) (hsize : v.capacity = w.capacity)
    (hqueue : v.queue = w.queue) (hheld : w.held.Perm (identity :: v.held))
    (hmarked : v.marked = (w.unmark identity).marked) : v.Orderly capacity := by
  obtain ⟨hn, honce⟩ := List.nodup_cons.1 (hheld.nodup_iff.1 h.once)
  refine ⟨hsize.trans h.size, by rw [hqueue, hsize]; exact h.room, honce, fun other => ?_⟩
  rw [hmarked, unmark, List.mem_filter, h.marked, hheld.mem_iff, List.mem_cons]
  constructor
  · rintro ⟨rfl | hm, hne⟩
    · simp at hne
    · exact hm
  · intro hm
    refine ⟨.inr hm, ?_⟩
    simpa using ne_of_mem_of_not_mem hm hn

theorem Orderly.queued (h : w.Orderly capacity) :
    w.queue.Nodup ∧ ∀ identity ∈ w.worker.held, identity ∉ w.queue := by
  have honce := h.once
  rw [held, List.append_assoc] at honce
  obtain ⟨hqueue, -, hne⟩ := List.nodup_append.1 (List.nodup_append.1 honce).2.1
  exact ⟨hqueue, fun identity hw hq => hne identity hq identity hw rfl⟩

theorem of_scan {found : List String} (hs : w.scan found = some v) :
    w.ticker = .scanning [] ∧ v = { w with ticker := .scanning found } := by
  unfold scan at hs
  split at hs
  · rename_i ht
    exact ⟨ht, (Option.some.inj hs).symm⟩
  · simp at hs

theorem of_mark (hs : w.mark = some v) : ∃ identity rest, w.ticker = .scanning (identity :: rest) ∧
    (identity ∈ w.marked ∧ v = { w with ticker := .scanning rest } ∨
      identity ∉ w.marked ∧
        v = { w with ticker := .offering identity rest, marked := identity :: w.marked }) := by
  unfold mark at hs
  split at hs
  · rename_i identity rest ht
    refine ⟨identity, rest, ht, ?_⟩
    split at hs
    · rename_i hm
      exact .inl ⟨by simpa using hm, (Option.some.inj hs).symm⟩
    · rename_i hm
      exact .inr ⟨by simpa using hm, (Option.some.inj hs).symm⟩
  · simp at hs

theorem of_send (hs : w.send = some v) : ∃ identity rest, w.ticker = .offering identity rest ∧
    (w.queue.length < w.capacity ∧
        v = { w with ticker := .scanning rest, queue := w.queue ++ [identity] } ∨
      w.capacity ≤ w.queue.length ∧ v = { w with ticker := .withdrawing identity }) := by
  unfold send at hs
  split at hs
  · rename_i identity rest ht
    refine ⟨identity, rest, ht, ?_⟩
    split at hs
    · rename_i hroom
      exact .inl ⟨hroom, (Option.some.inj hs).symm⟩
    · rename_i hroom
      exact .inr ⟨Nat.le_of_not_lt hroom, (Option.some.inj hs).symm⟩
  · simp at hs

theorem of_withdraw (hs : w.withdraw = some v) : ∃ identity, w.ticker = .withdrawing identity ∧
    v = { w.unmark identity with ticker := .scanning [] } := by
  unfold withdraw at hs
  split at hs
  · rename_i identity ht
    exact ⟨identity, ht, (Option.some.inj hs).symm⟩
  · simp at hs

theorem of_receive (hs : w.receive = some v) : ∃ identity rest, w.worker = .free ∧
    w.queue = identity :: rest ∧ v = { w with queue := rest, worker := .reloading identity } := by
  unfold receive at hs
  split at hs
  · rename_i identity rest hw hq
    exact ⟨identity, rest, hw, hq, (Option.some.inj hs).symm⟩
  · simp at hs

theorem of_reload (hs : w.reload = some (identity, v)) :
    w.worker = .reloading identity ∧ v = { w with worker := .releasing identity } := by
  unfold reload at hs
  split at hs
  · rename_i other hw
    obtain ⟨rfl, rfl⟩ := Prod.mk.inj (Option.some.inj hs)
    exact ⟨hw, rfl⟩
  · simp at hs

theorem of_release (hs : w.release = some v) : ∃ identity, w.worker = .releasing identity ∧
    v = { w.unmark identity with worker := .free } := by
  unfold release at hs
  split at hs
  · rename_i identity hw
    exact ⟨identity, hw, (Option.some.inj hs).symm⟩
  · simp at hs

theorem Orderly.scan {found : List String} (h : w.Orderly capacity)
    (hs : w.scan found = some v) : v.Orderly capacity := by
  obtain ⟨ht, rfl⟩ := of_scan hs
  exact h.pass rfl h.room (by simp [held, ht, Ticker.held]) rfl

theorem Orderly.mark (h : w.Orderly capacity) (hs : w.mark = some v) : v.Orderly capacity := by
  obtain ⟨identity, rest, ht, ⟨-, rfl⟩ | ⟨hn, rfl⟩⟩ := of_mark hs
  · exact h.pass rfl h.room (by simp [held, ht, Ticker.held]) rfl
  · exact h.enter hn rfl rfl (by simp [held, ht, Ticker.held]) rfl

theorem Orderly.send (h : w.Orderly capacity) (hs : w.send = some v) : v.Orderly capacity := by
  obtain ⟨identity, rest, ht, ⟨hroom, rfl⟩ | ⟨-, rfl⟩⟩ := of_send hs
  · refine h.pass rfl (by simpa using Nat.succ_le_of_lt hroom) ?_ rfl
    simp [held, ht, Ticker.held, List.perm_middle]
  · exact h.pass rfl h.room (by simp [held, ht, Ticker.held]) rfl

theorem Orderly.withdraw (h : w.Orderly capacity) (hs : w.withdraw = some v) :
    v.Orderly capacity := by
  obtain ⟨identity, ht, rfl⟩ := of_withdraw hs
  exact h.leave rfl rfl (by simp [held, ht, Ticker.held, unmark]) rfl

theorem Orderly.receive (h : w.Orderly capacity) (hs : w.receive = some v) :
    v.Orderly capacity := by
  obtain ⟨identity, rest, hw, hq, rfl⟩ := of_receive hs
  have hroom := h.room
  rw [hq] at hroom
  refine h.pass rfl (Nat.le_of_succ_le hroom) ?_ rfl
  simpa [held, hw, hq, Worker.held] using
    (List.perm_append_singleton identity rest).append_left w.ticker.held

theorem Orderly.reload (h : w.Orderly capacity) (hs : w.reload = some (identity, v)) :
    v.Orderly capacity := by
  obtain ⟨hw, rfl⟩ := of_reload hs
  exact h.pass rfl h.room (by simp [held, hw, Worker.held]) rfl

theorem Orderly.release (h : w.Orderly capacity) (hs : w.release = some v) :
    v.Orderly capacity := by
  obtain ⟨identity, hw, rfl⟩ := of_release hs
  refine h.leave rfl rfl ?_ rfl
  simpa [held, hw, Worker.held, unmark] using
    List.perm_append_singleton identity (w.ticker.held ++ w.queue)

/-- All identities that the ticker or the worker may still come to. -/
def listed (w : Watch) : List String := w.ticker.rest ++ w.held

end Watch

namespace Cache

variable {c d : Cache} {fs : FileSystem} {identity : String}

/-- There is nothing to compile for an identity: its template is as its file is, or the failure to
compile this file has been noted. -/
def Current (c : Cache) (fs : FileSystem) (identity : String) : Prop :=
  ∃ t path stamp, c.get? identity = some t ∧ t.origin = .file path ∧ fs.stamp path = .ok stamp ∧
    (t.modified = some stamp ∨ c.failures.find? identity = some stamp)

theorem current_reload (h : identity ∈ c.stale fs) :
    (c.reload fs identity).2.Current fs identity := by
  cases settled_reload h with
  | renewed hout _ _ hg _ => exact ⟨_, _, _, hg, rfl, hout.time, .inl rfl⟩
  | refused hout _ hg hf => exact ⟨_, _, _, hg, hout.origin, hout.time, .inr hf⟩

theorem Current.sameKept (h : c.Current fs identity) (hk : c.SameKept d identity) :
    d.Current fs identity := by
  obtain ⟨t, path, stamp, hg, ho, hs, hm⟩ := h
  exact ⟨t, path, stamp, hk.template.trans hg, ho, hs, by rwa [hk.failure]⟩

theorem Current.reload_eq (h : c.Current fs identity) : c.reload fs identity = (.ok false, c) := by
  obtain ⟨t, path, stamp, hg, ho, hs, hm⟩ := h
  have hdone : (t.modified == some stamp || c.failedAt identity stamp) = true := by simpa using hm
  simp only [reload, hg, ho, hs, if_pos hdone]

def Backed (c : Cache) (identity : String) : Prop :=
  ∃ t path, c.get? identity = some t ∧ t.origin = .file path

theorem backed_of_stale (h : identity ∈ c.stale fs) : c.Backed identity := by
  obtain ⟨t, path, stamp, hout⟩ := mem_stale_iff.1 h
  exact ⟨t, path, hout.get, hout.origin⟩

theorem Backed.reload (h : c.Backed identity) (fs : FileSystem) (other : String) :
    (c.reload fs other).2.Backed identity := by
  by_cases hne : identity = other
  · subst hne
    by_cases hs : identity ∈ c.stale fs
    · cases settled_reload hs with
      | renewed _ _ _ hg _ => exact ⟨_, _, hg, rfl⟩
      | refused hout _ hg _ => exact ⟨_, _, hg, hout.origin⟩
    · rwa [reload_of_not_stale hs]
  · obtain ⟨t, path, hg, ho⟩ := h
    exact ⟨t, path, (c.reload_sameKept fs hne).template.trans hg, ho⟩

theorem Backed.reload_eq (h : c.Backed identity) (hs : identity ∉ c.stale fs) :
    c.reload fs identity = (.ok false, c) ∨ ∃ e, c.reload fs identity = (.error (.file e), c) := by
  obtain ⟨t, path, hg, ho⟩ := h
  have hr := c.reloads fs identity
  have hkept := reload_of_not_stale hs
  generalize hresult : (c.reload fs identity).1 = result at hr
  generalize (c.reload fs identity).2 = d at hr
  cases hr with
  | missing hn => simp [hg] at hn
  | unbacked | current => exact .inl (Prod.ext hresult hkept)
  | unreachable => exact .inr ⟨_, Prod.ext hresult hkept⟩
  | refused hout | renewed hout => exact absurd (mem_stale_iff.2 ⟨_, _, _, hout⟩) hs

end Cache

structure Watched where
  watch : Watch
  cache : Cache
  files : FileSystem

inductive Deed where
  | edit | scan | mark | send | withdraw | receive | reload | release
  deriving DecidableEq, Repr

structure Moment where
  before : Watched
  deed : Deed

namespace Moment

def Reloads (m : Moment) (identity : String) : Prop :=
  m.deed = .reload ∧ m.before.watch.worker = .reloading identity

/-- The worker reloads an identity whose file is compiled again, whatever comes of it. -/
def Recompiles (m : Moment) (identity : String) : Prop :=
  m.Reloads identity ∧ identity ∈ m.before.cache.stale m.before.files

instance (m : Moment) (identity : String) : Decidable (m.Reloads identity) :=
  inferInstanceAs (Decidable (_ ∧ _))

instance (m : Moment) (identity : String) : Decidable (m.Recompiles identity) :=
  inferInstanceAs (Decidable (_ ∧ _))

def Idle (m : Moment) (identity : String) : Prop :=
  m.before.cache.reload m.before.files identity = (.ok false, m.before.cache)

/-- The reload of an identity does nothing since the time of its file cannot be looked up. -/
def Vain (m : Moment) (identity : String) : Prop :=
  ∃ e, m.before.cache.reload m.before.files identity = (.error (.file e), m.before.cache)

variable {m : Moment} {identity : String}

theorem Reloads.mem_listed (h : m.Reloads identity) : identity ∈ m.before.watch.listed := by
  simp [Watch.listed, Watch.held, h.2, Worker.held]

theorem Idle.not_recompiles (h : m.Idle identity) : ¬ m.Recompiles identity := by
  intro hm
  have hdone := m.before.cache.not_stale_reload m.before.files identity
  rw [h] at hdone
  exact hdone hm.2

end Moment

namespace Watched

variable {s t u : Watched} {identity : String}

def start (queueCapacity : Nat) (c : Cache) (fs : FileSystem) : Watched :=
  ⟨.start queueCapacity, c, fs⟩

/-- A scan takes down what is stale in any order; a reload is one step. -/
inductive Step : Watched → Deed → Watched → Prop where
  | edit (s : Watched) (fs : FileSystem) : Step s .edit { s with files := fs }
  | scan {s : Watched} {found : List String} {w : Watch} (hf : found.Perm (s.cache.stale s.files))
      (h : s.watch.scan found = some w) : Step s .scan { s with watch := w }
  | mark {s : Watched} {w : Watch} (h : s.watch.mark = some w) : Step s .mark { s with watch := w }
  | send {s : Watched} {w : Watch} (h : s.watch.send = some w) : Step s .send { s with watch := w }
  | withdraw {s : Watched} {w : Watch} (h : s.watch.withdraw = some w) :
      Step s .withdraw { s with watch := w }
  | receive {s : Watched} {w : Watch} (h : s.watch.receive = some w) :
      Step s .receive { s with watch := w }
  | reload {s : Watched} {w : Watch} {identity : String}
      (h : s.watch.reload = some (identity, w)) :
      Step s .reload { s with watch := w, cache := (s.cache.reload s.files identity).2 }
  | release {s : Watched} {w : Watch} (h : s.watch.release = some w) :
      Step s .release { s with watch := w }

inductive Runs : Watched → List Moment → Watched → Prop where
  | nil (s : Watched) : Runs s [] s
  | cons {s t u : Watched} {deed : Deed} {moments : List Moment} (h : Step s deed t)
      (hs : Runs t moments u) : Runs s (⟨s, deed⟩ :: moments) u

theorem Step.orderly {capacity : Nat} {deed : Deed} (h : Step s deed t)
    (ho : s.watch.Orderly capacity) : t.watch.Orderly capacity := by
  cases h with
  | edit => exact ho
  | scan _ h => exact ho.scan h
  | mark h => exact ho.mark h
  | send h => exact ho.send h
  | withdraw h => exact ho.withdraw h
  | receive h => exact ho.receive h
  | reload h => exact ho.reload h
  | release h => exact ho.release h

theorem Step.files_eq {deed : Deed} (h : Step s deed t) (hd : deed ≠ .edit) :
    t.files = s.files := by
  cases h with
  | edit => exact absurd rfl hd
  | scan | mark | send | withdraw | receive | reload | release => rfl

theorem Step.cache_eq {deed : Deed} (h : Step s deed t) :
    (∀ identity, ¬ (Moment.mk s deed).Reloads identity) ∧ t.cache = s.cache ∨
      ∃ identity, (Moment.mk s deed).Reloads identity ∧
        t.cache = (s.cache.reload s.files identity).2 := by
  cases h with
  | edit | scan | mark | send | withdraw | receive | release =>
    exact .inl ⟨fun _ h => by simp [Moment.Reloads] at h, rfl⟩
  | reload h => exact .inr ⟨_, ⟨rfl, (Watch.of_reload h).1⟩, rfl⟩

theorem Step.cache_of_reloads {deed : Deed} (h : Step s deed t)
    (hm : (Moment.mk s deed).Reloads identity) :
    t.cache = (s.cache.reload s.files identity).2 := by
  obtain ⟨hn, -⟩ | ⟨other, ho, he⟩ := h.cache_eq
  · exact absurd hm (hn identity)
  · obtain rfl := Worker.reloading.inj (ho.2.symm.trans hm.2)
    exact he

theorem Step.current {deed : Deed} (h : Step s deed t) (hd : deed ≠ .edit)
    (hc : s.cache.Current s.files identity) : t.cache.Current t.files identity := by
  rw [h.files_eq hd]
  obtain ⟨-, he⟩ | ⟨other, -, he⟩ := h.cache_eq
  · rwa [he]
  · by_cases hne : identity = other
    · subst hne
      rwa [he, hc.reload_eq]
    · exact he ▸ hc.sameKept (s.cache.reload_sameKept s.files hne)

theorem Step.current_of_recompiles {deed : Deed} (h : Step s deed t)
    (hm : (Moment.mk s deed).Recompiles identity) : t.cache.Current t.files identity := by
  obtain ⟨hr, hstale⟩ := hm
  have hd : deed ≠ .edit := by rintro rfl; simp [Moment.Reloads] at hr
  rw [h.files_eq hd, h.cache_of_reloads hr]
  exact Cache.current_reload hstale

/-- Whatever a step brings up was there before or has just been found stale. -/
theorem Step.mem_listed {deed : Deed} (h : Step s deed t) (hm : identity ∈ t.watch.listed) :
    identity ∈ s.watch.listed ∨ identity ∈ s.cache.stale s.files := by
  cases h with
  | edit => exact .inl hm
  | scan hf h =>
    obtain ⟨ht, rfl⟩ := Watch.of_scan h
    rw [← hf.mem_iff]
    grind [Watch.listed, Watch.held, Ticker.rest, Ticker.held]
  | mark h =>
    obtain ⟨other, rest, ht, ⟨-, rfl⟩ | ⟨-, rfl⟩⟩ := Watch.of_mark h
    all_goals grind [Watch.listed, Watch.held, Ticker.rest, Ticker.held]
  | send h =>
    obtain ⟨other, rest, ht, ⟨-, rfl⟩ | ⟨-, rfl⟩⟩ := Watch.of_send h
    all_goals grind [Watch.listed, Watch.held, Ticker.rest, Ticker.held]
  | withdraw h =>
    obtain ⟨other, ht, rfl⟩ := Watch.of_withdraw h
    grind [Watch.listed, Watch.held, Watch.unmark, Ticker.rest, Ticker.held]
  | receive h =>
    obtain ⟨other, rest, hw, hq, rfl⟩ := Watch.of_receive h
    grind [Watch.listed, Watch.held, Worker.held]
  | reload h =>
    obtain ⟨hw, rfl⟩ := Watch.of_reload h
    grind [Watch.listed, Watch.held, Worker.held]
  | release h =>
    obtain ⟨other, hw, rfl⟩ := Watch.of_release h
    grind [Watch.listed, Watch.held, Watch.unmark, Worker.held]

def Backed (s : Watched) : Prop := ∀ identity ∈ s.watch.listed, s.cache.Backed identity

theorem backed_start (queueCapacity : Nat) (c : Cache) (fs : FileSystem) :
    (start queueCapacity c fs).Backed := by
  simp [Backed, start, Watch.start, Watch.listed, Watch.held, Ticker.rest, Ticker.held, Worker.held]

theorem Step.backed {deed : Deed} (h : Step s deed t) (hb : s.Backed) : t.Backed := by
  intro identity hm
  have hs : s.cache.Backed identity := (h.mem_listed hm).elim (hb identity) Cache.backed_of_stale
  obtain ⟨-, he⟩ | ⟨other, -, he⟩ := h.cache_eq
  · rwa [he]
  · exact he ▸ hs.reload s.files other

theorem Runs.orderly {capacity : Nat} {moments : List Moment} (h : Runs s moments t)
    (ho : s.watch.Orderly capacity) : t.watch.Orderly capacity := by
  induction h with
  | nil => exact ho
  | cons h _ ih => exact ih (h.orderly ho)

theorem Runs.backed {moments : List Moment} (h : Runs s moments t) (hb : s.Backed) :
    t.Backed := by
  induction h with
  | nil => exact hb
  | cons h _ ih => exact ih (h.backed hb)

theorem Runs.idle {moments : List Moment} (h : Runs s moments t)
    (hd : ∀ m ∈ moments, m.deed ≠ .edit) (hc : s.cache.Current s.files identity) :
    ∀ m ∈ moments, m.Idle identity := by
  induction h with
  | nil => simp
  | cons h _ ih =>
    obtain ⟨hd, hrest⟩ := List.forall_mem_cons.1 hd
    exact List.forall_mem_cons.2 ⟨hc.reload_eq, ih hrest (h.current hd hc)⟩

/-- An identity is compiled again at most once. From then on, no reload of it does anything; a
reload without compiling does nothing either, and fails only if the file is gone. -/
structure CompiledOnce (identity : String) (moments : List Moment) : Prop where
  once : moments.countP (fun m => m.Recompiles identity) ≤ 1
  idle : moments.Pairwise fun m n => m.Recompiles identity → n.Idle identity
  spare : ∀ m ∈ moments, m.Reloads identity →
    m.Recompiles identity ∨ m.Idle identity ∨ m.Vain identity

theorem Runs.compiledOnce {moments : List Moment} (h : Runs s moments t) (hb : s.Backed)
    (hd : ∀ m ∈ moments, m.deed ≠ .edit) : CompiledOnce identity moments := by
  induction h with
  | nil => exact ⟨Nat.zero_le 1, .nil, by simp⟩
  | @cons s _ _ deed moments h hs ih =>
    obtain ⟨hd, hrest⟩ := List.forall_mem_cons.1 hd
    obtain ⟨honce, hidle, hspare⟩ := ih (h.backed hb) hrest
    -- once it has been compiled again, nothing that follows does anything about it
    have hall (hm : (Moment.mk s deed).Recompiles identity) : ∀ n ∈ moments, n.Idle identity :=
      hs.idle hrest (h.current_of_recompiles hm)
    refine ⟨?_, List.pairwise_cons.2 ⟨fun n hn hm => hall hm n hn, hidle⟩,
      List.forall_mem_cons.2 ⟨fun hm => ?_, hspare⟩⟩
    · by_cases hm : (Moment.mk s deed).Recompiles identity
      · have hzero : moments.countP (fun m => m.Recompiles identity) = 0 :=
          List.countP_eq_zero.2 fun n hn => by simpa using (hall hm n hn).not_recompiles
        simp [hm, hzero]
      · simpa [hm] using honce
    · by_cases hstale : identity ∈ s.cache.stale s.files
      · exact .inl ⟨hm, hstale⟩
      · exact .inr ((hb identity hm.mem_listed).reload_eq hstale)

/-- The queue keeps to its size and holds nothing twice and nothing that the worker has taken. Once
the files stay as they are, every identity is compiled again at most once. -/
structure Safe (size : Nat) (s : Watched) : Prop where
  room : s.watch.queue.length ≤ size
  once : s.watch.queue.Nodup
  apart : ∀ identity ∈ s.watch.worker.held, identity ∉ s.watch.queue
  settles : ∀ moments t, Runs s moments t → (∀ m ∈ moments, m.deed ≠ .edit) →
    ∀ identity, CompiledOnce identity moments

/-- A watch is safe after whatever steps, in whatever order they came. -/
theorem safe_of_runs {queueCapacity : Nat} {c : Cache} {fs : FileSystem} {moments : List Moment}
    (h : Runs (start queueCapacity c fs) moments s) : s.Safe (max queueCapacity 1) := by
  have ho := h.orderly (Watch.orderly_start queueCapacity)
  have hb := h.backed (backed_start queueCapacity c fs)
  obtain ⟨hqueue, hworker⟩ := ho.queued
  exact ⟨ho.size ▸ ho.room, hqueue, hworker, fun _ _ hs hd _ => hs.compiledOnce hb hd⟩

def busy : Watched :=
  ⟨⟨1, .scanning [], ["/a"], ["/a", "./t/b"], .reloading "./t/b"⟩, Cache.pageCache,
    Cache.editedPages⟩

theorem stale_busy : ["./t/b", "/a"].Perm (busy.cache.stale busy.files) := by
  rw [show busy.cache.stale busy.files = ["./t/b", "/a"] by decide +kernel]

theorem runs_busy : ∃ moments, Runs (start 0 Cache.pageCache Cache.pages) moments busy :=
  ⟨_, .cons (.edit _ Cache.editedPages) <| .cons (.scan stale_busy rfl) <| .cons (.mark rfl) <|
    .cons (.send rfl) <| .cons (.receive rfl) <| .cons (.mark rfl) <| .cons (.send rfl) <| .nil _⟩

/-- A scan that comes before the reload has the page reloaded a second time. -/
theorem safe_busy : busy.Safe 1 ∧ ∃ moments t, Runs busy moments t ∧
    (∀ m ∈ moments, m.deed ≠ .edit) ∧
    moments.countP (fun m => m.Reloads "./t/b") = 2 ∧
    moments.countP (fun m => m.Recompiles "./t/b") = 1 := by
  obtain ⟨_, h⟩ := runs_busy
  refine ⟨safe_of_runs h, _, _, .cons (.scan stale_busy rfl) <| .cons (.reload rfl) <|
    .cons (.release rfl) <| .cons (.receive rfl) <| .cons (.mark rfl) <| .cons (.send rfl) <|
    .cons (.reload rfl) <| .cons (.release rfl) <| .cons (.receive rfl) <| .cons (.reload rfl) <|
    .nil _, ?_, ?_, ?_⟩
  all_goals decide +kernel

end Watched

end Stencil
