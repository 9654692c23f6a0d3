import Stencil.Proofs.Cutting
set_option autoImplicit false

namespace Stencil

open Statement (Apart Sound)

def Statement.Adds (s : Statement) (items : List Item) : Prop :=
  ∀ d : Draft, Apart (s :: d.body) → d.Steps items (d.append s)

def Statement.Fills (body : List Statement) (items : List Item) : Prop :=
  ∀ d : Draft, Apart (body.reverse ++ d.body) →
    d.Steps items { d with body := body.reverse ++ d.body }

/-- Items whose steps bring a conditional to where closing it links the branch to its arms. -/
def Branch.Links (branch : Branch) (items : List Item) : Prop :=
  ∀ (d : Draft) (arms : List Arm) (current : Expression) (outer : List Statement)
    (frames : List Frame), d.frames = ⟨.conditional arms (some current), outer⟩ :: frames →
    ∃ arms' test body,
      d.Steps items ⟨⟨.conditional arms' test, outer⟩ :: frames, body, d.template⟩ ∧
      (Opening.conditional arms' test).finish? body.reverse
        = (Branch.link (⟨current, d.body.reverse⟩ :: arms) branch).conditional?

theorem steps_texts_onto {texts : List (List Char)} {d : Draft} {before : String}
    {rest : List Statement} (hd : d.body = .text before :: rest) :
    d.Steps (texts.map fun t => .text (String.ofList t))
      { d with body := .text (before ++ String.ofList texts.flatten) :: rest } := by
  induction texts generalizing d before with
  | nil =>
    obtain ⟨frames, body, template⟩ := d
    dsimp only at hd
    subst hd
    simpa using Draft.Steps.nil _
  | cons s texts ih =>
    have hfirst := Draft.Step.text d (String.ofList s)
    have hbody : d.appendText (String.ofList s)
        = { d with body := .text (before ++ String.ofList s) :: rest } := by
      simp [Draft.appendText, hd]
    rw [hbody] at hfirst
    have hmore := @ih { d with body := .text (before ++ String.ofList s) :: rest } _ rfl
    simpa [String.append_assoc] using Draft.Steps.cons hfirst hmore

theorem adds_texts {texts : List (List Char)} {literal : String} (hl : literal ≠ "")
    (h : texts.flatten = literal.toList) :
    (Statement.text literal).Adds (texts.map fun t => .text (String.ofList t)) := by
  intro d hd
  cases texts with
  | nil =>
    have hnil : literal.toList = [] := h.symm
    exact absurd (by simpa using hnil) hl
  | cons s texts =>
    have hfirst := Draft.Step.text d (String.ofList s)
    have hbody : d.appendText (String.ofList s) = d.append (.text (String.ofList s)) := by
      unfold Draft.appendText
      split
      · rename_i before rest hb
        rw [hb] at hd
        cases hd with
        | cons_cons hno => exact absurd ⟨rfl, rfl⟩ hno
      · rfl
    rw [hbody] at hfirst
    have hmore := @steps_texts_onto texts (d.append (.text (String.ofList s))) _ _ rfl
    have hall : String.ofList s ++ String.ofList texts.flatten = literal := by
      rw [← String.ofList_append, ← List.flatten_cons, h, String.ofList_toList]
    rw [hall] at hmore
    exact .cons hfirst hmore

theorem adds_statement? {item : Item} {s : Statement} (h : item.statement? = some s) :
    s.Adds [item] := fun d _ => (Draft.Step.statement d h).steps

theorem Statement.Fills.empty {body : List Statement} {items : List Item}
    (h : Statement.Fills body items) (hb : Apart body) (frames : List Frame)
    (template : Option String) :
    Draft.Steps ⟨frames, [], template⟩ items ⟨frames, body.reverse, template⟩ := by
  have hfill := h ⟨frames, [], template⟩ (by simpa using hb.reverse)
  simpa using hfill

theorem adds_enclosed {dir : Directive} {o : Opening} {body : List Statement} {s : Statement}
    {items : List Item} (ho : dir.opening? = some o) (hs : o.finish? body = some s)
    (hb : Apart body) (hi : Statement.Fills body items) :
    s.Adds (.tag dir :: (items ++ [.tag (.close o.construct)])) := by
  intro d _
  have hopen := Draft.Step.opens d ho
  have hfill := hi.empty hb (⟨o, d.body⟩ :: d.frames) d.template
  have hclose := @Draft.Step.close ⟨⟨o, d.body⟩ :: d.frames, body.reverse, d.template⟩ ⟨o, d.body⟩
    d.frames s rfl (by simpa using hs)
  exact .cons hopen (hfill.append hclose.steps)

theorem links_none : Branch.none.Links [] := by
  intro d arms current outer frames hf
  obtain ⟨_, body, template⟩ := d
  dsimp only at hf
  subst hf
  exact ⟨arms, some current, body, .nil _, rfl⟩

theorem links_elseIf {test : Expression} {body : List Statement} {branch : Branch}
    {xs ys : List Item} (hb : Apart body) (hx : Statement.Fills body xs) (hy : branch.Links ys) :
    (Branch.elseIf test body branch).Links (.tag (.elseIf test) :: (xs ++ ys)) := by
  intro d arms current outer frames hf
  have harm := @Draft.Step.arm d (.elseIf test) arms current (some test) outer frames rfl hf
  have hfill := hx.empty hb
    (⟨.conditional (⟨current, d.body.reverse⟩ :: arms) (some test), outer⟩ :: frames) d.template
  obtain ⟨arms', test', body', hsteps, hfinish⟩ := hy
    ⟨⟨.conditional (⟨current, d.body.reverse⟩ :: arms) (some test), outer⟩ :: frames, body.reverse,
      d.template⟩ _ _ _ _ rfl
  refine ⟨arms', test', body', .cons harm (hfill.append hsteps), ?_⟩
  rw [hfinish, List.reverse_reverse]
  rfl

theorem links_otherwise {body : List Statement} {items : List Item} (hb : Apart body)
    (hi : Statement.Fills body items) :
    (Branch.otherwise body).Links (.tag .otherwise :: items) := by
  intro d arms current outer frames hf
  have harm := @Draft.Step.arm d .otherwise arms current none outer frames rfl hf
  have hfill := hi.empty hb
    (⟨.conditional (⟨current, d.body.reverse⟩ :: arms) none, outer⟩ :: frames) d.template
  refine ⟨_, none, body.reverse, .cons harm hfill, ?_⟩
  rw [List.reverse_reverse]
  rfl

theorem adds_conditional {test : Expression} {body : List Statement} {branch : Branch}
    {xs ys : List Item} (hb : Apart body) (hx : Statement.Fills body xs) (hy : branch.Links ys) :
    (Statement.conditional test body branch).Adds
      (.tag (.openIf test) :: (xs ++ (ys ++ [.tag (.close .conditional)]))) := by
  intro d _
  have hopen := @Draft.Step.opens d (.openIf test) _ rfl
  have hfill := hx.empty hb (⟨.conditional [] (some test), d.body⟩ :: d.frames) d.template
  obtain ⟨arms, last, body', hsteps, hfinish⟩ := hy
    ⟨⟨.conditional [] (some test), d.body⟩ :: d.frames, body.reverse, d.template⟩ _ _ _ _ rfl
  have hclose := @Draft.Step.close ⟨⟨.conditional arms last, d.body⟩ :: d.frames, body', d.template⟩
    ⟨.conditional arms last, d.body⟩ d.frames (.conditional test body branch) rfl
    (by rw [hfinish, List.reverse_reverse]; rfl)
  exact .cons hopen (hfill.append (hsteps.append hclose.steps))

theorem fresh_blockTag (w tail : List Char) : Fresh (blockTag w ++ tail) := .inr rfl

theorem fresh_write {s : Statement} (h : s.isText = false) (tail : List Char) :
    Fresh (s.write tail) := by
  cases s with
  | text literal => simp [Statement.isText] at h
  | value | assign | conditional | loop | range | block | inclusion => exact .inr rfl

theorem fresh_writeBranch (branch : Branch) {tail : List Char} (h : Fresh tail) :
    Fresh (Statement.writeBranch branch tail) := by
  cases branch with
  | none => exact h
  | elseIf | otherwise => exact .inr rfl

/-- What has to follow a written statement: after text, nothing or a tag. -/
def Follows (s : Statement) (tail : List Char) : Prop := s.isText = true → Fresh tail

theorem follows_writeList {s : Statement} {rest : List Statement} (h : Apart (s :: rest))
    {tail : List Char} (ht : Fresh tail) : Follows s (Statement.writeList rest tail) := by
  intro hs
  cases rest with
  | nil => exact ht
  | cons a rest =>
    cases h with
    | cons_cons hno =>
      have ha : a.isText = false := by simpa [hs] using hno
      exact fresh_write ha _

theorem fills_cons {s : Statement} {rest : List Statement} {xs ys : List Item} (hx : s.Adds xs)
    (hy : Statement.Fills rest ys) : Statement.Fills (s :: rest) (xs ++ ys) := by
  intro d hd
  have happ : (s :: rest).reverse ++ d.body = rest.reverse ++ (s :: d.body) := by simp
  rw [happ] at hd ⊢
  have hfirst := hx d hd.right_of_append
  exact hfirst.append (hy (d.append s) hd)

theorem Cuts.enclosed {w : List Char} {dir : Directive} {o : Opening} {body : List Statement}
    {s : Statement} (hw : Scans (w ++ ·) (Directive.Tells dir)) (hv : Worded w)
    (ho : dir.opening? = some o) (hs : o.finish? body = some s) (hb : Apart body)
    (hbody : Cuts Fresh (Statement.writeList body) (Statement.Fills body))
    (hwrite : s.write = fun tail =>
      blockTag w ++ Statement.writeList body (closeTag o.construct ++ tail)) :
    Cuts (Follows s) s.write s.Adds := by
  have hc : Worded o.construct.closer.toList := by
    cases o.construct <;> exact ⟨'e', _, rfl, by decide, by decide⟩
  have hclose := @Cuts.block (Follows s) _ _ (Directive.scans_close o.construct) hc
  have hopen := @Cuts.block (fun _ => True) _ _ hw hv
  rw [hwrite]
  refine (hopen.append (hbody.append hclose fun _ _ => fresh_blockTag _ _) fun _ _ => trivial).mono
    (fun _ h => h) ?_
  rintro _ ⟨_, _, rfl, rfl, xs, _, rfl, hxs, rfl⟩
  exact adds_enclosed ho hs hb hxs

theorem Cuts.single {w : List Char} {dir : Directive} {s : Statement}
    (hw : Scans (w ++ ·) (Directive.Tells dir)) (hv : Worded w)
    (hs : (Item.tag dir).statement? = some s) (hwrite : s.write = (blockTag w ++ ·)) :
    Cuts (Follows s) s.write s.Adds := by
  rw [hwrite]
  refine (Cuts.block hw hv).mono (fun _ h => h) ?_
  rintro _ rfl
  exact adds_statement? hs

theorem Cuts.conditional {test : Expression} {body : List Statement} {branch : Branch}
    (ht : test.Normal) (hb : Apart body)
    (hbody : Cuts Fresh (Statement.writeList body) (Statement.Fills body))
    (hbranch : Cuts Fresh (Statement.writeBranch branch) branch.Links) :
    Cuts (Follows (.conditional test body branch)) (Statement.conditional test body branch).write
      (Statement.conditional test body branch).Adds := by
  have hopen := @Cuts.block (fun _ => True) _ _ (Directive.scans_openIf ht)
    ⟨'i', _, rfl, by decide, by decide⟩
  have hclose := @Cuts.block (Follows (.conditional test body branch)) _ _
    (Directive.scans_close .conditional) ⟨'e', _, rfl, by decide, by decide⟩
  have hrest := hbranch.append hclose fun _ _ => fresh_blockTag _ _
  have hinside := hbody.append hrest fun _ _ => fresh_writeBranch branch (fresh_blockTag _ _)
  have hw : (Statement.conditional test body branch).write = fun tail =>
      blockTag ("if".toList ++ ' ' :: test.write []) ++
        Statement.writeList body (Statement.writeBranch branch
          (blockTag Construct.conditional.closer.toList ++ tail)) := by
    funext tail
    simp [Statement.write, openTag, closeTag, Construct.keyword]
  rw [hw]
  refine (hopen.append hinside fun _ _ => trivial).mono (fun _ h => h) ?_
  rintro _ ⟨_, _, rfl, rfl, xs, _, rfl, hxs, ys, _, rfl, hys, rfl⟩
  exact adds_conditional hb hxs hys

mutual

theorem cuts_statement (s : Statement) (h : s.Normal) : Cuts (Follows s) s.write s.Adds := by
  match s, h with
  | .text literal, h =>
    refine (Cuts.text h).mono (fun _ hf => hf rfl) ?_
    rintro _ ⟨texts, rfl, hflat⟩
    exact adds_texts h.1 hflat
  | .value e, h =>
    refine (Cuts.value h).mono (fun _ h => h) ?_
    rintro _ rfl
    exact adds_statement? rfl
  | .assign a, h =>
    exact Cuts.single (Directive.scans_assign h) ⟨'s', _, rfl, by decide, by decide⟩ rfl
      (by funext tail; simp [Statement.write])
  | .inclusion template params, h =>
    exact Cuts.single (Directive.scans_inclusion h) ⟨'i', _, rfl, by decide, by decide⟩ rfl
      (by funext tail; simp [Statement.write])
  | .loop start test step body, ⟨hs, ht, hp, hb, hall⟩ =>
    exact Cuts.enclosed (o := .loop start test step) (Directive.scans_openLoop hs ht hp)
      ⟨'f', _, rfl, by decide, by decide⟩ rfl rfl hb (cuts_body body ⟨hb, hall⟩)
      (by funext tail; simp [Statement.write, openTag, Construct.keyword, Opening.construct])
  | .range key value source body, ⟨hk, hv, hs, hb, hall⟩ =>
    exact Cuts.enclosed (o := .range key value source) (Directive.scans_openRange hk hv hs)
      ⟨'r', _, rfl, by decide, by decide⟩ rfl rfl hb (cuts_body body ⟨hb, hall⟩)
      (by funext tail; simp [Statement.write, openTag, Construct.keyword, Opening.construct])
  | .block name body, ⟨hn, hb, hall⟩ =>
    exact Cuts.enclosed (o := .block name) (Directive.scans_openBlock hn)
      ⟨'b', _, rfl, by decide, by decide⟩ rfl rfl hb (cuts_body body ⟨hb, hall⟩)
      (by funext tail; simp [Statement.write, openTag, Construct.keyword, Opening.construct])
  | .conditional test body branch, ⟨ht, hb, hall, hbranch⟩ =>
    exact Cuts.conditional ht hb (cuts_body body ⟨hb, hall⟩) (cuts_branch branch hbranch)

theorem cuts_body (body : List Statement) (h : Sound body) :
    Cuts Fresh (Statement.writeList body) (Statement.Fills body) := by
  match body, h with
  | [], _ =>
    refine Cuts.nothing.mono (fun _ h => h) ?_
    rintro _ rfl d _
    exact .nil d
  | s :: rest, ⟨ha, hs, hall⟩ =>
    have hrest := cuts_body rest ⟨List.IsChain.tail ha, hall⟩
    have hw : Statement.writeList (s :: rest) = fun tail =>
        s.write (Statement.writeList rest tail) := by
      funext tail
      simp [Statement.writeList]
    rw [hw]
    refine ((cuts_statement s hs).append hrest fun tail ht => follows_writeList ha ht).mono
      (fun _ h => h) ?_
    rintro _ ⟨xs, ys, rfl, hxs, hys⟩
    exact fills_cons hxs hys

theorem cuts_branch (branch : Branch) (h : branch.Normal) :
    Cuts Fresh (Statement.writeBranch branch) branch.Links := by
  match branch, h with
  | .none, _ =>
    refine Cuts.nothing.mono (fun _ h => h) ?_
    rintro _ rfl
    exact links_none
  | .elseIf test body branch, ⟨ht, hb, hall, hbranch⟩ =>
    have htag := @Cuts.block (fun _ => True) _ _ (Directive.scans_elseIf ht)
      ⟨'e', _, rfl, by decide, by decide⟩
    have hrest := (cuts_body body ⟨hb, hall⟩).append (cuts_branch branch hbranch)
      fun _ => fresh_writeBranch branch
    have hw : Statement.writeBranch (.elseIf test body branch) = fun tail =>
        blockTag ("elseif".toList ++ ' ' :: test.write []) ++
          Statement.writeList body (Statement.writeBranch branch tail) := by
      funext tail
      simp [Statement.writeBranch]
    rw [hw]
    refine (htag.append hrest fun _ _ => trivial).mono (fun _ h => h) ?_
    rintro _ ⟨_, _, rfl, rfl, xs, ys, rfl, hxs, hys⟩
    have hlinks : (Branch.elseIf test body branch).Links _ := links_elseIf hb hxs hys
    exact hlinks
  | .otherwise body, ⟨hb, hall⟩ =>
    have htag := @Cuts.block (fun _ => True) _ _ Directive.scans_otherwise
      ⟨'e', _, rfl, by decide, by decide⟩
    have hw : Statement.writeBranch (.otherwise body) = fun tail =>
        blockTag "else".toList ++ Statement.writeList body tail := by
      funext tail
      simp [Statement.writeBranch]
    rw [hw]
    refine (htag.append (cuts_body body ⟨hb, hall⟩) fun _ _ => trivial).mono (fun _ h => h) ?_
    rintro _ ⟨_, items, rfl, rfl, hitems⟩
    exact links_otherwise hb hitems

end

theorem cuts_tree {t : Tree} (h : t.Normal) : Cuts Fresh (fun tail => t.write ++ tail) fun items =>
    Draft.empty.Steps items ⟨[], t.statements.reverse, t.extend⟩ := by
  obtain ⟨statements, extended⟩ := t
  obtain ⟨hb, hall⟩ := h
  have hbody := cuts_body statements ⟨hb, hall⟩
  cases extended with
  | none =>
    have hw : (fun tail => (⟨statements, none⟩ : Tree).write ++ tail)
        = Statement.writeList statements := by
      funext tail
      exact (Statement.writeList_append statements tail).symm
    rw [hw]
    exact hbody.mono (fun _ h => h) fun items hi => hi.empty hb [] none
  | some template =>
    have htag := @Cuts.block (fun _ => True) _ _ (Directive.scans_extend template)
      ⟨'e', _, rfl, by decide, by decide⟩
    have hw : (fun tail => (⟨statements, some template⟩ : Tree).write ++ tail) = fun tail =>
        blockTag ("extend".toList ++ ' ' :: Text.Quoted.write template.toList) ++
          Statement.writeList statements tail := by
      funext tail
      rw [Statement.writeList_append statements tail]
      simp [Tree.write]
    rw [hw]
    refine (htag.append hbody fun _ _ => trivial).mono (fun _ h => h) ?_
    rintro _ ⟨_, items, rfl, rfl, hi⟩
    exact .cons (.extend template rfl) (hi.empty hb [] (some template))

/-- A normal tree that is written and compiled comes back as it was. -/
theorem Tree.compile_toString {t : Tree} (h : t.Normal) {s : Source} (hs : s.text = t.toString)
    (radius : Nat) : s.compile radius = .ok t := by
  obtain ⟨ls, items, hr, hcut, hsp, hsteps⟩ := cuts_tree h
  have hwrite : s.text.toList = t.write := by simp [hs, Tree.toString]
  have hnormal : Text.normalize t.write = t.write :=
    Text.normalize_of_not_mem fun hm => by simpa using hr [] (by simpa using hm)
  have hparings : parings t.write = .ok ls := by
    have hc := hcut [] (.inl rfl)
    rw [parings_nil] at hc
    simpa [Except.map] using hc
  obtain ⟨pieces, hpieces, hls⟩ := map_eq_ok hparings
  have htokens := hsp (Token.ofPieces 0 1 pieces) (by rw [Piece.spelling_ofPieces, hls])
  refine Source.compile_eq_ok_iff.2 ⟨pieces, items, t.statements.reverse, ?_, htokens, ?_, hsteps⟩
  · rw [hwrite, hnormal, hpieces]
  · rw [List.reverse_reverse]

def knottyTree : Tree where
  statements := [.text "a\x7b",
    .value (.binary .mul (.binary .add (.identifier "x.y") (.number "1.5"))
      (.index (.identifier "v") (.string "\n"))),
    .text "\x7b% endverbatim %\x7d@",
    .conditional (.call "f" none) [.assign ⟨"n", .increment, none⟩]
      (.elseIf (.call "g" (some [.identifier "b"])) [.text "\x7b\x7b"] (.otherwise [])),
    .loop none none none [], .range none (some "i") (.identifier "s") [.block "main" []],
    .inclusion "part" [⟨"p", .assign, some (.string "q")⟩]]
  extend := some "base"

theorem compile_knottyTree : knottyTree.Normal ∧
    (Source.named "knotty" knottyTree.toString).compile 2 = .ok knottyTree := by
  have h : knottyTree.Normal := by decide +kernel
  have hs : (Source.named "knotty" knottyTree.toString).text = knottyTree.toString := rfl
  exact ⟨h, Tree.compile_toString h hs 2⟩

end Stencil
