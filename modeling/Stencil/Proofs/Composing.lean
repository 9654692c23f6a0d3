import Stencil.Proofs.Compiling
import Stencil.Proofs.Continuing
import Stencil.Proofs.LineEnds
import Stencil.Proofs.Statement.Joining
import Stencil.Proofs.Statement.Places
set_option autoImplicit false

namespace Stencil

theorem SameTokens.of_spelling {ts us : List Token}
    (h : ts.map Token.spelling = us.map Token.spelling) : SameTokens ts us := by
  induction ts generalizing us with
  | nil =>
    obtain rfl := List.map_eq_nil_iff.1 h.symm
    exact .nil
  | cons t ts ih =>
    obtain ⟨u, rest, rfl, hu, hrest⟩ := List.map_eq_cons_iff.1 h.symm
    obtain ⟨hkind, hvalue⟩ := Prod.mk.inj hu
    exact .cons ⟨hkind.symm, (String.toList_inj.1 hvalue).symm⟩ (ih hrest.symm)

def Tells (ls : List Spelling) (items : List Item) : Prop :=
  ∃ ts : List Token, ts.map Token.spelling = ls ∧ Spells ts items

def Item.literal (s : List Char) : List Item :=
  if s = [] then [] else [.text (String.ofList s)]

theorem Item.literal_of_ne_nil {s : List Char} (hs : s ≠ []) :
    literal s = [.text (String.ofList s)] := if_neg hs

namespace Tells

variable {ls ms : List Spelling} {items others : List Item}

theorem spells (h : Tells ls items) {ts : List Token} (hts : ts.map Token.spelling = ls) :
    Spells ts items := by
  obtain ⟨us, hus, hspells⟩ := h
  exact hspells.same (.of_spelling (hus.trans hts.symm))

theorem append (h : Tells ls items) (h' : Tells ms others) :
    Tells (ls ++ ms) (items ++ others) := by
  obtain ⟨ts, rfl, hts⟩ := h
  obtain ⟨us, rfl, hus⟩ := h'
  exact ⟨ts ++ us, by simp, hts.append hus⟩

theorem literal (s : List Char) : Tells (Piece.spellings (Piece.literal s)) (Item.literal s) := by
  rw [Piece.spellings_literal, Item.literal]
  split
  · exact ⟨[], rfl, .nil⟩
  · refine ⟨[⟨.text, String.ofList s, 0, 1⟩], by simp [Token.spelling], ?_⟩
    exact .cons (.text rfl) (.text _) .nil

end Tells

theorem Spells.of_cons_text {t : Token} {ts : List Token} {items : List Item}
    (h : Spells (t :: ts) items) (ht : t.kind = .text) :
    ∃ others, items = .text t.value :: others ∧ Spells ts others := by
  generalize hus : t :: ts = us at h
  cases h with
  | nil => simp at hus
  | cons hc hs hm =>
    cases hc with
    | text =>
      obtain ⟨rfl, rfl⟩ := List.cons.inj hus
      cases hs
      exact ⟨_, rfl, hm⟩
    | value ho =>
      obtain ⟨rfl, _⟩ := List.cons.inj hus
      simp [ho] at ht
    | block ho =>
      obtain ⟨rfl, _⟩ := List.cons.inj hus
      simp [ho] at ht

theorem Segment.Covers.of_append_text {s : Segment} {ts : List Token} {t : Token}
    (h : s.Covers (ts ++ [t])) (ht : t.kind = .text) : ts = [] ∧ s = .text t.value := by
  generalize hus : ts ++ [t] = us at h
  cases h with
  | @text u _ =>
    have hone : ts ++ [t] = [] ++ [u] := hus
    obtain ⟨rfl, hlast⟩ := List.append_inj' hone rfl
    obtain rfl := List.singleton_inj.1 hlast
    exact ⟨rfl, rfl⟩
  | value _ _ hc | block _ _ _ hc =>
    obtain ⟨_, hlast⟩ := List.append_inj' hus rfl
    obtain rfl := List.singleton_inj.1 hlast
    simp [hc] at ht

/-- A text token at the end is spelled by itself, since tags end in their closers. -/
theorem Spells.of_append_text {t : Token} {ts : List Token} {items : List Item}
    (h : Spells (ts ++ [t]) items) (ht : t.kind = .text) :
    ∃ others, items = others ++ [.text t.value] ∧ Spells ts others := by
  generalize hus : ts ++ [t] = us at h
  induction h generalizing ts with
  | nil => simp at hus
  | @cons s vs more item items hc hs hm ih =>
    -- the text is a segment alone if this one is the last, and else it stands in the others
    obtain rfl | ⟨front, last, rfl⟩ := List.eq_nil_or_concat more
    · obtain rfl := hm.unique .nil
      rw [List.append_nil] at hus
      subst hus
      obtain ⟨rfl, rfl⟩ := hc.of_append_text ht
      cases hs
      exact ⟨[], rfl, .nil⟩
    · rw [List.concat_eq_append, ← List.append_assoc] at hus
      obtain ⟨rfl, hlast⟩ := List.append_inj' hus rfl
      obtain ⟨others, rfl, hfront⟩ := ih (by rw [hlast, List.concat_eq_append])
      exact ⟨item :: others, rfl, .cons hc hs hfront⟩

namespace Tells

variable {ls : List Spelling} {items : List Item}

theorem of_append_literal {run : List Char}
    (h : Tells (ls ++ Piece.spellings (Piece.literal run)) items) :
    ∃ others, items = others ++ Item.literal run ∧ Tells ls others := by
  obtain ⟨ts, hts, hs⟩ := h
  rw [Piece.spellings_literal] at hts
  by_cases hr : run = []
  · rw [if_pos hr, List.append_nil] at hts
    exact ⟨items, by simp [Item.literal, hr], ts, hts, hs⟩
  · rw [if_neg hr] at hts
    obtain ⟨front, last, rfl, hfront, hlast⟩ := List.map_eq_append_iff.1 hts
    obtain ⟨t, rfl, ht⟩ := List.map_eq_singleton_iff.1 hlast
    obtain ⟨hkind, hvalue⟩ := Prod.mk.inj ht
    obtain ⟨others, rfl, hothers⟩ := hs.of_append_text hkind
    refine ⟨others, ?_, front, hfront, hothers⟩
    rw [Item.literal_of_ne_nil hr, ← hvalue, String.ofList_toList]

theorem of_literal_append {run : List Char}
    (h : Tells (Piece.spellings (Piece.literal run) ++ ls) items) :
    ∃ others, items = Item.literal run ++ others ∧ Tells ls others := by
  obtain ⟨ts, hts, hs⟩ := h
  rw [Piece.spellings_literal] at hts
  by_cases hr : run = []
  · rw [if_pos hr, List.nil_append] at hts
    exact ⟨items, by simp [Item.literal, hr], ts, hts, hs⟩
  · rw [if_neg hr] at hts
    obtain ⟨t, rest, rfl, ht, hrest⟩ := List.map_eq_cons_iff.1 hts
    obtain ⟨hkind, hvalue⟩ := Prod.mk.inj ht
    obtain ⟨others, rfl, hothers⟩ := hs.of_cons_text hkind
    refine ⟨others, ?_, rest, hrest, hothers⟩
    rw [Item.literal_of_ne_nil hr, ← hvalue, String.ofList_toList]
    rfl

end Tells

namespace Draft

theorem appendText_appendText (d : Draft) (a b : String) :
    (d.appendText a).appendText b = d.appendText (a ++ b) := by
  rw [appendText_eq, appendText_eq, appendText_eq, Statement.withText_withText]

theorem Step.text_eq {d e : Draft} {literal : String} (h : d.Step (.text literal) e) :
    e = d.appendText literal := by
  cases h with
  | text => rfl
  | statement hs => simp [Item.statement?] at hs

theorem Steps.literal_append {d e f : Draft} {run r : List Char}
    (h : d.Steps (Item.literal run) e) (h' : Steps e (Item.literal r) f) :
    d.Steps (Item.literal (run ++ r)) f := by
  by_cases hrun : run = []
  · subst hrun
    cases h
    exact h'
  by_cases hr : r = []
  · subst hr
    cases h'
    rwa [List.append_nil]
  rw [Item.literal_of_ne_nil hrun] at h
  rw [Item.literal_of_ne_nil hr] at h'
  cases h with
  | cons hd hs =>
    cases hs
    cases h' with
    | cons he hs' =>
      cases hs'
      rw [he.text_eq, hd.text_eq, appendText_appendText, ← String.ofList_append,
        Item.literal_of_ne_nil (by simp [hrun])]
      exact (Step.text d _).steps

theorem onto_empty {d : Draft} (hd : d.frames = []) : d.onto empty = d := by
  obtain ⟨_, body, template⟩ := d
  cases hd
  rfl

/-- A template without an `extend` tag, read after another one. -/
theorem Steps.compose {others : List Item} {more : List Statement}
    (h : empty.Steps others ⟨[], more, none⟩) (body : List Statement)
    (template : Option String) :
    Steps ⟨[], body, template⟩ others ⟨[], Statement.onto body more, template⟩ := by
  have hx : ∀ item ∈ others, item.extend? = none := by simpa [empty] using h.template.symm
  have honto := h.onto hx ⟨[], body, template⟩
  rwa [onto_empty rfl] at honto

end Draft

theorem Seam.tells {ls ms both : List Spelling} (h : Seam ls ms both) {items others : List Item}
    (hls : Tells ls items) (hms : Tells ms others) : ∃ all, Tells both all ∧
      ∀ {d e f : Draft}, d.Steps items e → Draft.Steps e others f → d.Steps all f := by
  obtain ⟨head, run, r, tail, rfl, rfl, rfl⟩ := h
  obtain ⟨front, rfl, hfront⟩ := hls.of_append_literal
  obtain ⟨back, rfl, hback⟩ := hms.of_literal_append
  refine ⟨_, (hfront.append (.literal _)).append hback, ?_⟩
  intro d e f hd he
  obtain ⟨d', hfirst, hrun⟩ := hd.append_inv
  obtain ⟨e', hr, hlast⟩ := he.append_inv
  exact (hfirst.append (hrun.literal_append hr)).append hlast

/-- Templates compose: the second is read as it is alone, and only text goes on at the seam. -/
theorem Source.compile_append {p q s : Source} {t u : Tree} {radius : Nat}
    (hp : p.compile radius = .ok t) (hq : q.compile radius = .ok u)
    (hs : s.text = p.text ++ q.text) (hx : u.extend = none)
    (hl : ∀ c ∈ p.text.toList.getLast?, c ≠ '{' ∧ c ≠ '@' ∧ c ≠ '\r') :
    s.compile radius = .ok ⟨Statement.joined t.statements u.statements, t.extend⟩ := by
  obtain ⟨ps, items, body, hcp, hsp, htp, hdp⟩ := compile_eq_ok_iff.1 hp
  obtain ⟨qs, others, more, hcq, hsq, htq, hdq⟩ := compile_eq_ok_iff.1 hq
  have hlast : ∀ c ∈ (Text.normalize p.text.toList).getLast?, c ≠ '{' ∧ c ≠ '@' := by
    intro c hc
    obtain rfl | hc := Text.getLast?_normalize hc
    · decide
    · exact ⟨(hl c hc).1, (hl c hc).2.1⟩
  obtain ⟨both, hinto, hseam⟩ := (cutInto_of_cut hcp).append (cutInto_of_cut hcq) hlast
  have hboth := hinto.cut
  rw [← Text.normalize_append (fun h => (hl _ h).2.2 rfl), ← String.toList_append, ← hs] at hboth
  obtain ⟨all, hall, hsteps⟩ := hseam.tells ⟨_, Piece.spelling_ofPieces ps 0 1, hsp⟩
    ⟨_, Piece.spelling_ofPieces qs 0 1, hsq⟩
  rw [hx] at hdq
  refine compile_eq_ok_iff.2 ⟨both, all, Statement.onto body more, hboth,
    hall.spells (Piece.spelling_ofPieces both 0 1), ?_, hsteps hdp (hdq.compose body t.extend)⟩
  rw [htp, htq, Statement.reverse_onto]

def headSource : Source := Source.named "head"
  "\x7b% extend 'page' %\x7d\x7b% if x %\x7da\x7b% endif %\x7d\x7b# - #\x7db, "

def headTree : Tree where
  statements := [.conditional (.identifier "x") [.text "a"] .none, .text "b, "]
  extend := some "page"

def bodySource : Source := Source.named "body" "c\x7b\x7b d \x7d\x7d"

def bodyTree : Tree where
  statements := [.text "c", .value (.identifier "d")]
  extend := none

theorem compile_headBody : headSource.compile 2 = .ok headTree ∧
    bodySource.compile 2 = .ok bodyTree ∧
    (Source.named "both" (headSource.text ++ bodySource.text)).compile 2 = .ok
      ⟨[.conditional (.identifier "x") [.text "a"] .none, .text "b, c",
        .value (.identifier "d")], some "page"⟩ :=
  have hp : headSource.compile 2 = .ok headTree := by decide +kernel
  have hq : bodySource.compile 2 = .ok bodyTree := by decide +kernel
  have hl : headSource.text.toList.getLast? = some ' ' := by decide +kernel
  ⟨hp, hq, Source.compile_append hp hq rfl rfl (by simp [hl])⟩

end Stencil
