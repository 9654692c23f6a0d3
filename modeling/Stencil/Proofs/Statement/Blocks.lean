import Stencil.Proofs.Statement.Listing
set_option autoImplicit false

namespace Stencil

mutual

inductive Statement.Holds : Statement → Statement → Prop where
  | self (s : Statement) : Statement.Holds s s
  | block {name : String} {body : List Statement} {s : Statement} (h : Statement.HoldsIn body s) :
      Statement.Holds (.block name body) s
  | loop {start step : Option Assignment} {test : Option Expression} {body : List Statement}
      {s : Statement} (h : Statement.HoldsIn body s) :
      Statement.Holds (.loop start test step body) s
  | range {key val : Option String} {source : Expression} {body : List Statement} {s : Statement}
      (h : Statement.HoldsIn body s) : Statement.Holds (.range key val source body) s
  | conditional {test : Expression} {body : List Statement} {branch : Branch} {s : Statement}
      (h : Statement.HoldsIn body s) : Statement.Holds (.conditional test body branch) s
  | branch {test : Expression} {body : List Statement} {branch : Branch} {s : Statement}
      (h : Branch.Holds branch s) : Statement.Holds (.conditional test body branch) s

inductive Statement.HoldsIn : List Statement → Statement → Prop where
  | head {first s : Statement} {rest : List Statement} (h : Statement.Holds first s) :
      Statement.HoldsIn (first :: rest) s
  | tail {first s : Statement} {rest : List Statement} (h : Statement.HoldsIn rest s) :
      Statement.HoldsIn (first :: rest) s

inductive Branch.Holds : Branch → Statement → Prop where
  | elseIf {test : Expression} {body : List Statement} {branch : Branch} {s : Statement}
      (h : Statement.HoldsIn body s) : Branch.Holds (.elseIf test body branch) s
  | later {test : Expression} {body : List Statement} {branch : Branch} {s : Statement}
      (h : Branch.Holds branch s) : Branch.Holds (.elseIf test body branch) s
  | otherwise {body : List Statement} {s : Statement} (h : Statement.HoldsIn body s) :
      Branch.Holds (.otherwise body) s

end

/-- Items that go on with what ends a body: the closing tag, or the next arm of a conditional. -/
def Item.EndBody (items : List Item) : Prop :=
  ∃ dir more, items = .tag dir :: more ∧
    ((∃ c, dir = .close c) ∨ (∃ test, dir = .elseIf test) ∨ dir = .otherwise)

namespace Statement

theorem not_endBody_listing (s : Statement) (more : List Item) :
    ¬ Item.EndBody (s.listing ++ more) := by
  rintro ⟨dir, items, h, hdir⟩
  cases s <;> simp only [listing, List.cons_append, List.cons.injEq, reduceCtorEq, false_and,
    Item.tag.injEq] at h <;> (obtain ⟨rfl, -⟩ := h; simp at hdir)

theorem endBody_close (c : Construct) (more : List Item) :
    Item.EndBody (.tag (.close c) :: more) := ⟨_, _, rfl, .inl ⟨c, rfl⟩⟩

theorem endBody_branch (branch : Branch) (c : Construct) (more : List Item) :
    Item.EndBody (branch.listing ++ .tag (.close c) :: more) := by
  cases branch with
  | none => exact endBody_close c more
  | elseIf test body branch => exact ⟨_, _, rfl, .inr (.inl ⟨test, rfl⟩)⟩
  | otherwise body => exact ⟨_, _, rfl, .inr (.inr rfl)⟩

mutual

/-- A statement is told from its listing, whatever follows. -/
theorem listing_append_inj {s t : Statement} {x y : List Item}
    (h : s.listing ++ x = t.listing ++ y) : s = t ∧ x = y := by
  match s with
  | .text _ | .value _ | .assign _ | .inclusion _ _ =>
    cases t <;> simp_all [listing]
  | .conditional test body branch =>
    cases t with
    | conditional test' body' branch' =>
      simp only [listing, List.cons_append, List.cons.injEq, List.append_assoc] at h
      obtain ⟨htest, hbody⟩ := h
      obtain ⟨rfl, hbranch⟩ := listAll_append_inj (endBody_branch ..) (endBody_branch ..) hbody
      obtain ⟨rfl, hrest⟩ := branch_append_inj hbranch
      simp_all
    | _ => simp [listing] at h
  | .loop start test step body =>
    cases t with
    | loop start' test' step' body' =>
      simp only [listing, List.cons_append, List.cons.injEq, List.append_assoc] at h
      obtain ⟨rfl, hrest⟩ := listAll_append_inj (endBody_close ..) (endBody_close ..) h.2
      simp_all
    | _ => simp [listing] at h
  | .range key val source body =>
    cases t with
    | range key' val' source' body' =>
      simp only [listing, List.cons_append, List.cons.injEq, List.append_assoc] at h
      obtain ⟨rfl, hrest⟩ := listAll_append_inj (endBody_close ..) (endBody_close ..) h.2
      simp_all
    | _ => simp [listing] at h
  | .block name body =>
    cases t with
    | block name' body' =>
      simp only [listing, List.cons_append, List.cons.injEq, List.append_assoc] at h
      obtain ⟨rfl, hrest⟩ := listAll_append_inj (endBody_close ..) (endBody_close ..) h.2
      simp_all
    | _ => simp [listing] at h

theorem listAll_append_inj {body others : List Statement} {x y : List Item}
    (hx : Item.EndBody x) (hy : Item.EndBody y)
    (h : listAll body ++ x = listAll others ++ y) : body = others ∧ x = y := by
  match body, others with
  | [], [] => exact ⟨rfl, h⟩
  | [], t :: others =>
    simp only [listAll, List.nil_append, List.append_assoc] at h
    exact absurd (h ▸ hx) (t.not_endBody_listing _)
  | s :: rest, [] =>
    simp only [listAll, List.nil_append, List.append_assoc] at h
    exact absurd (h ▸ hy) (s.not_endBody_listing _)
  | s :: rest, t :: others =>
    simp only [listAll, List.append_assoc] at h
    obtain ⟨rfl, hrest⟩ := listing_append_inj h
    obtain ⟨rfl, rfl⟩ := listAll_append_inj hx hy hrest
    exact ⟨rfl, rfl⟩

theorem branch_append_inj {b b' : Branch} {x y : List Item}
    (h : b.listing ++ .tag (.close .conditional) :: x =
      b'.listing ++ .tag (.close .conditional) :: y) : b = b' ∧ x = y := by
  match b with
  | .none => cases b' <;> simp_all [Branch.listing]
  | .elseIf test body branch =>
    cases b' with
    | elseIf test' body' branch' =>
      simp only [Branch.listing, List.cons_append, List.cons.injEq, List.append_assoc] at h
      obtain ⟨htest, hbody⟩ := h
      obtain ⟨rfl, hbranch⟩ := listAll_append_inj (endBody_branch ..) (endBody_branch ..) hbody
      obtain ⟨rfl, hrest⟩ := branch_append_inj hbranch
      simp_all
    | _ => simp [Branch.listing] at h
  | .otherwise body =>
    cases b' with
    | otherwise body' =>
      simp only [Branch.listing, List.cons_append, List.cons.injEq, true_and] at h
      obtain ⟨rfl, hrest⟩ := listAll_append_inj (endBody_close ..) (endBody_close ..) h
      simpa using hrest
    | _ => simp [Branch.listing] at h

end

end Statement

def Item.block (name : String) (body : List Statement) : List Item :=
  .tag (.openBlock name) :: (Statement.listAll body ++ [.tag (.close .block)])

/-- What a look-up in some items has to give: the body of the block that is opened first under the
name, or nothing if none is opened. -/
inductive Item.Finds (name : String) (items : List Item) : Option (List Statement) → Prop where
  | none (h : .tag (.openBlock name) ∉ items) : Finds name items none
  | some {before after : List Item} {body : List Statement}
      (h : .tag (.openBlock name) ∉ before) (hi : items = before ++ block name body ++ after) :
      Finds name items (some body)

theorem eq_of_first {α : Type} {a : α} {s t x y : List α} (hs : a ∉ s) (ht : a ∉ t)
    (h : s ++ a :: x = t ++ a :: y) : x = y := by
  obtain ⟨more, heq, hx⟩ | ⟨more, heq, hx⟩ := List.append_eq_append_iff.1 h
  all_goals
    cases more with
    | nil => simp_all
    | cons b more => simp_all

namespace Item.Finds

variable {name : String} {items others : List Item} {x y : Option (List Statement)}

theorem append (hx : Finds name items x) (hy : Finds name others y) :
    Finds name (items ++ others) (x.or y) := by
  cases hx with
  | @some before after body hb hi =>
    rw [Option.some_or]
    have hi : items ++ others = before ++ block name body ++ (after ++ others) := by simp [hi]
    exact .some hb hi
  | none h =>
    rw [Option.none_or]
    cases hy with
    | none h' => exact .none (by simp [h, h'])
    | @some before after body hb hi =>
      have hi : items ++ others = (items ++ before) ++ block name body ++ after := by simp [hi]
      exact .some (by simp [h, hb]) hi

theorem cons {item : Item} (hne : item ≠ .tag (.openBlock name)) (hx : Finds name items x) :
    Finds name (item :: items) x := by
  have hitem : Finds name [item] .none := .none (by simpa using Ne.symm hne)
  simpa using hitem.append hx

theorem snoc {c : Construct} (hx : Finds name items x) :
    Finds name (items ++ [.tag (.close c)]) x := by
  have hclose : Finds name [.tag (.close c)] .none := .none (by simp)
  simpa using hx.append hclose

/-- Only one body can be found, for a body is told from its listing. -/
theorem unique (hx : Finds name items x) (hy : Finds name items y) : x = y := by
  cases hx with
  | none h =>
    cases hy with
    | none => rfl
    | some hb hi => exact absurd (by simp [hi, block]) h
  | @some before after body hb hi =>
    cases hy with
    | none h => exact absurd (by simp [hi, block]) h
    | @some before' after' body' hb' hi' =>
      simp only [hi, block, List.append_assoc, List.cons_append] at hi'
      have hbody := eq_of_first hb hb' hi'
      rw [(Statement.listAll_append_inj (Statement.endBody_close ..) (Statement.endBody_close ..)
        hbody).1]

end Item.Finds

namespace Statement

mutual

theorem finds_block? (name : String) (s : Statement) :
    Item.Finds name s.listing (s.block? name) := by
  match s with
  | .text _ | .value _ | .assign _ | .inclusion _ _ => exact .none (by simp [listing])
  | .conditional test body branch =>
    exact .cons (by simp) ((finds_blockIn? name body).append (finds_branch name branch)).snoc
  | .loop start test step body => exact .cons (by simp) (finds_blockIn? name body).snoc
  | .range key val source body => exact .cons (by simp) (finds_blockIn? name body).snoc
  | .block n body =>
    by_cases hn : n = name
    · subst hn
      have hi : (Statement.block n body).listing = [] ++ Item.block n body ++ [] := by
        simp [listing, Item.block]
      simpa [block?] using Item.Finds.some (by simp) hi
    · rw [block?, if_neg hn]
      exact .cons (by simpa using hn) (finds_blockIn? name body).snoc

theorem finds_blockIn? (name : String) (body : List Statement) :
    Item.Finds name (listAll body) (blockIn? name body) := by
  match body with
  | [] => exact .none (by simp [listAll])
  | s :: rest => exact (s.finds_block? name).append (finds_blockIn? name rest)

theorem finds_branch (name : String) (branch : Branch) :
    Item.Finds name branch.listing (branch.block? name) := by
  match branch with
  | .none => exact .none (by simp [Branch.listing])
  | .elseIf test body branch =>
    exact .cons (by simp) ((finds_blockIn? name body).append (finds_branch name branch))
  | .otherwise body => exact .cons (by simp) (finds_blockIn? name body)

end

mutual

theorem holds_of_block? {name : String} {body : List Statement} {s : Statement}
    (h : s.block? name = some body) : s.Holds (.block name body) := by
  match s with
  | .text _ | .value _ | .assign _ | .inclusion _ _ => simp [block?] at h
  | .conditional test inner branch =>
    obtain h | ⟨-, h⟩ := Option.or_eq_some_iff.1 h
    · exact .conditional (holdsIn_of_blockIn? h)
    · exact .branch (holds_of_branch h)
  | .loop start test step inner => exact .loop (holdsIn_of_blockIn? h)
  | .range key val source inner => exact .range (holdsIn_of_blockIn? h)
  | .block n inner =>
    rw [block?] at h
    split at h
    · rename_i hn
      rw [hn, Option.some.inj h]
      exact .self _
    · exact .block (holdsIn_of_blockIn? h)

theorem holdsIn_of_blockIn? {name : String} {body inner : List Statement}
    (h : blockIn? name inner = some body) : HoldsIn inner (.block name body) := by
  match inner with
  | [] => simp [blockIn?] at h
  | s :: rest =>
    obtain h | ⟨-, h⟩ := Option.or_eq_some_iff.1 h
    · exact .head (holds_of_block? h)
    · exact .tail (holdsIn_of_blockIn? h)

theorem holds_of_branch {name : String} {body : List Statement} {branch : Branch}
    (h : branch.block? name = some body) : branch.Holds (.block name body) := by
  match branch with
  | .none => simp [Branch.block?] at h
  | .elseIf test inner branch =>
    obtain h | ⟨-, h⟩ := Option.or_eq_some_iff.1 h
    · exact .elseIf (holdsIn_of_blockIn? h)
    · exact .later (holds_of_branch h)
  | .otherwise inner => exact .otherwise (holdsIn_of_blockIn? h)

end

end Statement

mutual

theorem Statement.Holds.subset {s u : Statement} (h : s.Holds u) : u.listing ⊆ s.listing := by
  match h with
  | .self _ => exact fun _ hi => hi
  | .block h | .loop h | .range h | .conditional h | .branch h =>
    intro item hi
    simp [Statement.listing, h.subset hi]

theorem Statement.HoldsIn.subset {body : List Statement} {u : Statement}
    (h : Statement.HoldsIn body u) : u.listing ⊆ Statement.listAll body := by
  match h with
  | .head h | .tail h =>
    intro item hi
    simp [Statement.listAll, h.subset hi]

theorem Branch.Holds.subset {branch : Branch} {u : Statement} (h : branch.Holds u) :
    u.listing ⊆ branch.listing := by
  match h with
  | .elseIf h | .later h | .otherwise h =>
    intro item hi
    simp [Branch.listing, h.subset hi]

end

namespace Tree

/-- Where a tree opens a block of a name first, and that the block is a part of the tree. -/
structure OpensFirst (t : Tree) (name : String) (body : List Statement) : Prop where
  holds : Statement.HoldsIn t.statements (.block name body)
  first : ∃ before after, t.listing = before ++ Item.block name body ++ after ∧
    .tag (.openBlock name) ∉ before

/-- The block that is found for a name is the one that is opened first in the document, and none is
found exactly if none is there. -/
theorem finds_first_block (t : Tree) (name : String) :
    (∀ body, t.block? name = some body ↔ t.OpensFirst name body) ∧
      (t.block? name = none ↔ ∀ body, ¬ Statement.HoldsIn t.statements (.block name body)) := by
  have hfinds : Item.Finds name t.listing (t.block? name) :=
    Statement.finds_blockIn? name t.statements
  refine ⟨fun body => ⟨fun h => ?_, fun ⟨_, before, after, hi, hb⟩ => ?_⟩, fun h body hin => ?_,
    fun h => ?_⟩
  · rw [h] at hfinds
    cases hfinds with
    | some hb hi => exact ⟨Statement.holdsIn_of_blockIn? h, _, _, hi, hb⟩
  · exact hfinds.unique (.some hb hi)
  · rw [h] at hfinds
    cases hfinds with
    | none hnone => exact hnone (hin.subset (by simp [Statement.listing]))
  · refine Option.eq_none_iff_forall_ne_some.2 fun body hb => ?_
    exact h body (Statement.holdsIn_of_blockIn? hb)

end Tree

end Stencil
