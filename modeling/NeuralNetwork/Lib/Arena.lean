import Mathlib.Data.List.Perm.Subperm
import Mathlib.Data.Prod.Lex
import NeuralNetwork.Lib.Region

/-!
# Arenas with scopes

Blocks are carved off the pieces of an arena, each behind the last one. A scope remembers the cursor at
which it was opened, and closing it puts the cursor back. `Layers pieces cur levels`: the cursor is at `cur`
and `levels` are the open scopes, the innermost one first, with what was carved in each. All of that is
disjoint (`Layers.disjoint`) and lies before the cursor (`Layers.before`). `Holds` is for blocks that are
lent out with a header of `n` bytes and outlive no scope whose blocks they were carved from.
-/

namespace Region.Arena

/-- A piece and an offset in it. -/
abbrev Position := Nat ×ₗ Nat

/-- Where a scope opened at the cursor begins. -/
def start (cur : Option Position) : Position := cur.getD (toLex (0, 0))

/-- `b` begins at the offset `off` of the piece `i`. -/
def Placed (pieces : List Block) (b : Block) (i off : Nat) : Prop :=
  ∃ piece, pieces[i]? = some piece ∧ b.ptr = piece.ptr.next off ∧ off + b.size ≤ piece.size

def Before (pieces : List Block) (b : Block) (p : Position) : Prop :=
  ∃ i off, Placed pieces b i off ∧ toLex (i, off + b.size) ≤ p

def After (pieces : List Block) (p : Position) (b : Block) : Prop :=
  ∃ i off, Placed pieces b i off ∧ p ≤ toLex (i, off)

/-- There is such a place. -/
def Valid (pieces : List Block) (p : Position) : Prop :=
  ∃ piece, pieces[(ofLex p).1]? = some piece ∧ (ofLex p).2 ≤ piece.size

variable {pieces pieces' : List Block} {b c : Block} {p q : Position} {i j off off' : Nat}

/-! ## Places -/

theorem getElem?_of_prefix {α : Type} {l l' : List α} {a : α} (h : l <+: l') (e : l[i]? = some a) :
    l'[i]? = some a := by
  obtain ⟨k, rfl⟩ := h
  rw [List.getElem?_append_left (List.getElem?_eq_some_iff.1 e).1]
  exact e

theorem Placed.grow (h : Placed pieces b i off) (hp : pieces <+: pieces') : Placed pieces' b i off := by
  obtain ⟨piece, e, hb⟩ := h
  exact ⟨piece, getElem?_of_prefix hp e, hb⟩

theorem Before.grow (h : Before pieces b p) (hp : pieces <+: pieces') : Before pieces' b p := by
  obtain ⟨i, off, hb, hle⟩ := h
  exact ⟨i, off, hb.grow hp, hle⟩

theorem After.grow (h : After pieces p b) (hp : pieces <+: pieces') : After pieces' p b := by
  obtain ⟨i, off, hb, hle⟩ := h
  exact ⟨i, off, hb.grow hp, hle⟩

theorem Valid.grow (h : Valid pieces p) (hp : pieces <+: pieces') : Valid pieces' p := by
  obtain ⟨piece, e, hle⟩ := h
  exact ⟨piece, getElem?_of_prefix hp e, hle⟩

theorem Before.le (h : Before pieces b p) (hp : p ≤ q) : Before pieces b q := by
  obtain ⟨i, off, hb, hle⟩ := h
  exact ⟨i, off, hb, hle.trans hp⟩

theorem Placed.within (h : Placed pieces b i off) :
    ∃ piece ∈ pieces, Block.Within b.ptr b.size piece := by
  obtain ⟨piece, e, hb, hle⟩ := h
  refine ⟨piece, List.mem_of_getElem? e, ?_⟩
  rw [hb]
  exact ⟨rfl, Nat.le_add_right _ _, by simp only [Ptr.next]; omega⟩

/-- What a block covers is of its piece. -/
theorem Placed.covers {piece : Block} (h : Placed pieces b i off) (e : pieces[i]? = some piece) {r : Ptr}
    (hr : b.Covers r) : piece.Covers r := by
  obtain ⟨piece', e', hb, hle⟩ := h
  obtain rfl := Option.some.inj (e.symm.trans e')
  obtain ⟨h1, h2, h3⟩ := hr
  rw [hb] at h1 h2 h3
  simp only [Ptr.next] at h1 h2 h3
  exact ⟨h1, by omega, by omega⟩

/-- Blocks of disjoint pieces, one behind the other. -/
theorem Before.disjoint (hd : pieces.Pairwise Block.Disjoint) (hb : Before pieces b p)
    (hc : After pieces p c) : Block.Disjoint b c := by
  obtain ⟨i, off, hb, hbp⟩ := hb
  obtain ⟨j, off', hc, hcp⟩ := hc
  have hle := Prod.Lex.toLex_le_toLex.1 (hbp.trans hcp)
  obtain ⟨piece, e, eb, hsb⟩ := hb
  obtain ⟨piece', e', ec, hsc⟩ := hc
  intro r hr hr'
  rcases hle with hlt | ⟨heq, hoff⟩
  · obtain ⟨hi, ei⟩ := List.getElem?_eq_some_iff.1 e
    obtain ⟨hj, ej⟩ := List.getElem?_eq_some_iff.1 e'
    have hne := List.pairwise_iff_getElem.1 hd i j hi hj hlt
    rw [ei, ej] at hne
    exact hne r (Placed.covers ⟨piece, e, eb, hsb⟩ e hr) (Placed.covers ⟨piece', e', ec, hsc⟩ e' hr')
  · subst heq
    obtain rfl := Option.some.inj (e.symm.trans e')
    have h1 := hr.2.2
    have h2 := hr'.2.1
    rw [eb] at h1
    rw [ec] at h2
    simp only [Ptr.next] at h1 h2
    omega

/-! ## Levels -/

/-- A scope: the cursor at which it was opened, and what was carved in it. -/
abbrev Level := Option Position × List Block

/-- What was carved in the scopes. -/
def carved (levels : List Level) : List Block := levels.flatMap (·.2)

inductive Layers (pieces : List Block) : Option Position → List Level → Prop
  | nil : Layers pieces none []
  | cons {p : Position} {saved : Option Position} {bs : List Block} {levels : List Level} :
      Valid pieces p → start saved ≤ p → (∀ b ∈ bs, After pieces (start saved) b ∧ Before pieces b p) →
      bs.Pairwise Block.Disjoint → Layers pieces saved levels → Layers pieces (some p) ((saved, bs) :: levels)

namespace Layers

variable {cur saved : Option Position} {bs : List Block} {levels : List Level}

theorem grow (h : Layers pieces cur levels) (hp : pieces <+: pieces') : Layers pieces' cur levels := by
  induction h with
  | nil => exact .nil
  | cons hv hle hbs hd _ ih =>
    exact .cons (hv.grow hp) hle (fun b hb => ⟨(hbs b hb).1.grow hp, (hbs b hb).2.grow hp⟩) hd ih

theorem before (h : Layers pieces cur levels) : ∀ b ∈ carved levels, Before pieces b (start cur) := by
  induction h with
  | nil => exact fun b hb => nomatch hb
  | cons hv hle hbs hd _ ih =>
    intro b hb
    rw [carved, List.flatMap_cons] at hb
    rcases List.mem_append.1 hb with hb | hb
    · exact (hbs b hb).2
    · exact (ih b hb).le hle

/-- **Everything carved is disjoint.** -/
theorem disjoint (h : Layers pieces cur levels) (hd : pieces.Pairwise Block.Disjoint) :
    (carved levels).Pairwise Block.Disjoint := by
  induction h with
  | nil => exact .nil
  | cons hv hle hbs hbd hrest ih =>
    rw [carved, List.flatMap_cons]
    refine List.pairwise_append.2 ⟨hbd, ih, fun b hb c hc => ?_⟩
    exact ((hrest.before c hc).disjoint hd (hbs b hb).1).symm

theorem openScope (h : Layers pieces (some p) levels) : Layers pieces (some p) ((some p, []) :: levels) := by
  refine .cons ?_ le_rfl (fun b hb => nomatch hb) .nil h
  cases h
  assumption

/-- A block behind the cursor is carved, and the cursor put behind it. -/
theorem carve (h : Layers pieces (some p) ((saved, bs) :: levels)) (hd : pieces.Pairwise Block.Disjoint)
    (hle : p ≤ q) (hq : Valid pieces q) (hafter : After pieces p b) (hbefore : Before pieces b q) :
    Layers pieces (some q) ((saved, b :: bs) :: levels) := by
  cases h with
  | cons hv hsaved hbs hbd hrest =>
    obtain ⟨i, off, hb, hp⟩ := hafter
    refine .cons hq (hsaved.trans hle) (fun c hc => ?_) (.cons (fun c hc => ?_) hbd) hrest
    · rcases List.mem_cons.1 hc with rfl | hc
      · exact ⟨⟨i, off, hb, hsaved.trans hp⟩, hbefore⟩
      · exact ⟨(hbs c hc).1, (hbs c hc).2.le hle⟩
    · exact ((hbs c hc).2.disjoint hd ⟨i, off, hb, hp⟩).symm

end Layers

/-! ## Who has what was carved -/

/-- Each open scope has blocks that are lent out, with headers of `n` bytes, and some ranges are held back.
All of these were carved, and what an outer scope has was not carved in an inner one. -/
structure Holds (n : Nat) (levels : List Level) (scopes : List (List Block)) (held : List Block) : Prop where
  outer : ∀ j, ((scopes.drop (j + 1)).flatten.map (Block.outer n)).Subperm (carved (levels.drop (j + 1)))
  all : (scopes.flatten.map (Block.outer n) ++ held).Subperm (carved levels)

/-- The scopes without the block at `p`. -/
def giveBack (p : Ptr) (scopes : List (List Block)) : List (List Block) :=
  scopes.map (List.filter (·.ptr ≠ p))

theorem flatten_giveBack (ptr : Ptr) (scopes : List (List Block)) :
    (giveBack ptr scopes).flatten = scopes.flatten.filter (·.ptr ≠ ptr) := by
  rw [giveBack, List.filter_flatten]

theorem drop_giveBack (ptr : Ptr) (scopes : List (List Block)) (k : Nat) :
    (giveBack ptr scopes).drop k = giveBack ptr (scopes.drop k) := List.map_drop.symm

/-- A block that is given back and those that are left. -/
theorem cons_giveBack_subperm {scopes : List (List Block)} (h : b ∈ scopes.flatten) :
    (b :: (giveBack b.ptr scopes).flatten).Subperm scopes.flatten := by
  have hb : b ∈ scopes.flatten.filter (fun c => !decide (c.ptr ≠ b.ptr)) :=
    List.mem_filter.2 ⟨h, by simp⟩
  have happ := (List.subperm_append_right (scopes.flatten.filter (·.ptr ≠ b.ptr))).2
    (List.singleton_sublist.2 hb).subperm
  rw [flatten_giveBack]
  exact happ.trans (List.perm_append_comm.trans (List.filter_append_perm _ _)).subperm

namespace Holds

variable {n : Nat} {levels : List Level} {scopes : List (List Block)} {held held' bs s : List Block}
  {saved : Option Position} {l : Level}

theorem nil (n : Nat) : Holds n [] [] [] := ⟨fun _ => by simp, by simp⟩

theorem weaken (h : Holds n levels scopes held) (hs : held'.Subperm held) : Holds n levels scopes held' :=
  ⟨h.outer, ((List.subperm_append_left _).2 hs).trans h.all⟩

theorem openScope (h : Holds n levels scopes held) (saved : Option Position) :
    Holds n ((saved, []) :: levels) ([] :: scopes) held := by
  refine ⟨fun j => ?_, h.all⟩
  cases j with
  | zero => exact ((List.sublist_append_left _ _).subperm).trans h.all
  | succ j => exact h.outer j

theorem closeScope (h : Holds n (l :: levels) (s :: scopes) held) : Holds n levels scopes [] := by
  refine ⟨fun j => h.outer (j + 1), ?_⟩
  rw [List.append_nil]
  exact h.outer 0

/-- What is carved is held back. -/
theorem carveHeld (h : Holds n ((saved, bs) :: levels) scopes held) (c : Block) :
    Holds n ((saved, c :: bs) :: levels) scopes (c :: held) :=
  ⟨h.outer, List.perm_middle.subperm.trans ((List.subperm_cons c).2 h.all)⟩

/-- What is held back is lent out. -/
theorem lend (h : Holds n levels (s :: scopes) held) (hp : held.Perm (b.outer n :: held')) :
    Holds n levels ((b :: s) :: scopes) held' := by
  refine ⟨h.outer, List.Subperm.trans (List.Perm.subperm ?_) h.all⟩
  exact List.perm_middle.symm.trans (hp.symm.append_left _)

/-- What was lent out is given back. -/
theorem giveBack (h : Holds n levels scopes held) (hb : b ∈ scopes.flatten) :
    Holds n levels (giveBack b.ptr scopes) (b.outer n :: held) := by
  refine ⟨fun j => ?_, ?_⟩
  · rw [drop_giveBack, flatten_giveBack]
    exact (List.Sublist.map _ List.filter_sublist).subperm.trans (h.outer j)
  · obtain ⟨l, hperm, hl⟩ := cons_giveBack_subperm hb
    have hsub : ((b :: (Arena.giveBack b.ptr scopes).flatten).map (Block.outer n)).Subperm
        (scopes.flatten.map (Block.outer n)) := ⟨l.map _, hperm.map _, hl.map _⟩
    exact List.perm_middle.subperm.trans (((List.subperm_append_right held).2 hsub).trans h.all)

/-- Nothing is in two hands. -/
theorem disjoint (h : Holds n levels scopes held) (hd : (carved levels).Pairwise Block.Disjoint) :
    (scopes.flatten.map (Block.outer n) ++ held).Pairwise Block.Disjoint := by
  obtain ⟨l, hperm, hsub⟩ := h.all
  exact (hperm.pairwise_iff fun hxy => hxy.symm).1 (hd.sublist hsub)

end Holds

end Region.Arena
