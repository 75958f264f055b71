import TemporalCheck.Proofs.Build
import TemporalCheck.Proofs.Collection
import TemporalCheck.Proofs.NatSet

/-!
# TemporalCheck.Proofs.Sharing

Sharing is maximal.  Below a shared formula no two nodes stand for the same formula
(`Forest.SharesAll`), so there are as many nodes as there are different subformulas
(`Forest.SharesAll.size_eq`).

While a formula is shared, known nodes stand for different formulas, and the operands of known nodes
are known, so that all nodes below a known one are (`Build.Sharing.Right.mem_of_below`).  Sharing a
formula that is shared already visits nodes that stand for themselves and adds none
(`Build.share_of_sharesAll`).
-/

namespace TemporalCheck

/-- No formula is stored twice below a node. -/
def Forest.SharesAll (f : Forest) (root : NodeId) : Prop :=
  ∀ a b e, f.Below root a → f.Below root b → f.Denotes a e → f.Denotes b e → a = b

namespace Forest

variable {f : Forest} {root : NodeId} {e : Expr} {ids : NatSet}

/-- Equal nodes below a shared formula are one. -/
theorem SharesAll.eq_of_equal {a b : NodeId} (h : f.SharesAll root) (hroot : f.Denotes root e)
    (ha : f.Below root a) (hb : f.Below root b) (heq : f.equal a b = .ok true) : a = b := by
  obtain ⟨ea, -, hea⟩ := hroot.of_below ha
  obtain ⟨eb, -, heb⟩ := hroot.of_below hb
  rw [equal_eq_decide hea heb, Except.ok.injEq, decide_eq_true_eq] at heq
  exact h a b eb ha hb (heq ▸ hea) heb

/-- There is one node for each subformula. -/
theorem SharesAll.size_eq (h : f.SharesAll root) (hroot : f.Denotes root e)
    (hids : ∀ id, id ∈ ids ↔ f.Below root id) : ids.size = e.subformulas.toFinset.card := by
  -- Each node goes with the formula that it stands for.
  rw [← NatSet.card_toFinset]
  have hdenotes : ∀ id ∈ ids.toFinset, ∃ e' ∈ e.subformulas, f.Denotes id e' := by
    intro id hid
    exact hroot.of_below ((hids id).1 (NatSet.mem_toFinset.1 hid))
  choose! tree htree hstands using hdenotes
  refine Finset.card_nbij tree (fun id hid => ?_) (fun a ha b hb heq => ?_) fun e' he' => ?_
  · exact List.mem_toFinset.2 (htree id hid)
  · refine h a b (tree b) ((hids a).1 ha) ((hids b).1 hb) ?_ (hstands b hb)
    exact heq ▸ hstands a ha
  · obtain ⟨id, hbelow, hid⟩ := hroot.exists_below (List.mem_toFinset.1 he')
    have hmem : id ∈ ids.toFinset := NatSet.mem_toFinset.2 ((hids id).2 hbelow)
    exact ⟨id, hmem, (hstands id hmem).unique hid⟩

end Forest

namespace Build

open Forest

variable {f : Forest} {root : NodeId} {s : Sharing}

/-! ## Known nodes -/

namespace Sharing.Right

variable {k : NodeId}

theorem mem_of_below (hs : s.Right f) (hk : k ∈ s.known) {below : NodeId} (hb : f.Below k below) :
    below ∈ s.known := by
  refine hb.preserves (P := fun id => id ∈ s.known) (fun a found ha hfound b hmem => ?_) hk
  obtain ⟨node, hnode, rfl⟩ := children_eq_ok_iff.1 hfound
  exact hs.operands a ha node hnode b hmem

theorem sharesAll (hs : s.Right f) (hk : k ∈ s.known) : f.SharesAll k :=
  fun a b e ha hb hea heb =>
    hs.unique a (hs.mem_of_below hk ha) b (hs.mem_of_below hk hb) e hea heb

end Sharing.Right

/-! ## Sharing once more -/

/-- What is noted when a formula is shared once more: the known nodes lie below it, and every node
stands for itself. -/
structure Sharing.Own (s : Sharing) (f : Forest) (root : NodeId) : Prop where
  below : ∀ k ∈ s.known, f.Below root k
  done : ∀ id k, s.done.lookup id = some k → k = id

/-- What sharing a node once more ends in: the node itself, in the same forest. -/
def Stays (f : Forest) (root id : NodeId) (p : NodeId × Sharing) (g : Forest) : Prop :=
  p.1 = id ∧ g = f ∧ p.2.Own f root

/-- A node that has been handled and is its own copy is noted. -/
theorem Sharing.Own.note {id : NodeId} (hs : s.Own f root) :
    Own { s with done := (id, id) :: s.done } f root := by
  refine ⟨hs.below, fun id' k hl => ?_⟩
  obtain ⟨rfl, rfl⟩ | hl := eq_or_lookup_of_cons hl
  · rfl
  · exact hs.done id' k hl

/-- A node below the root joins those that have been met. -/
theorem Sharing.Own.meet {id : NodeId} (hs : s.Own f root) (hid : f.Below root id) :
    Own { s with known := s.known ++ [id] } f root := by
  refine ⟨fun k hk => ?_, hs.done⟩
  obtain hk | hk := List.mem_append.1 hk
  · exact hs.below k hk
  · rw [List.mem_singleton.1 hk]
    exact hid

/-- In a formula whose equal subformulas are one node already, the search for an equal node ends
with the node itself. -/
theorem yields_settle_self {id : NodeId} {e : Expr} (hshares : f.SharesAll root)
    {tree : Expr} (hroot : f.Denotes root tree) (hs : s.Own f root) (hid : f.Below root id)
    (h : f.Denotes id e) : Yields (settle id id s) f (Stays f root id) := by
  have hdenotes : ∀ k ∈ s.known, ∃ e', f.Denotes k e' := by
    intro k hk
    obtain ⟨e', -, he'⟩ := hroot.of_below (hs.below k hk)
    exact ⟨e', he'⟩
  obtain ⟨k, hmem, hk, hfind⟩ | ⟨-, hfind⟩ := findM?_equal hdenotes h
  · obtain rfl := hshares k id e (hs.below k hmem) hid hk h
    refine yields_settle_of_find hfind (fun k' h => ?_) (by simp)
    cases h
    exact ⟨rfl, rfl, hs.note⟩
  · exact yields_settle_of_find hfind (by simp) fun _ => ⟨rfl, rfl, (hs.meet hid).note⟩

/-- Sharing a formula whose equal subformulas are one node already gives the nodes back as they
are. -/
theorem yields_shareWithin_self {d : Nat} {id : NodeId} {e : Expr} (hshares : f.SharesAll root)
    {tree : Expr} (hroot : f.Denotes root tree) (hs : s.Own f root) (hid : f.Below root id)
    (h : f.Denotes id e) (hd : e.height ≤ d) :
    Yields (shareWithin d id s) f (Stays f root id) := by
  induction d generalizing id e s with
  | zero => exact absurd hd (Nat.not_le_of_lt e.height_pos)
  | succ d ih =>
    unfold shareWithin
    refine .bind_run ⟨(s, s), f, rfl, ?_⟩
    dsimp only
    cases hl : s.done.lookup id with
    | some k => exact ⟨(k, s), f, rfl, hs.done id k hl, rfl, hs⟩
    | none =>
      refine .bind_run (.lift_run ?_)
      have hself := h
      cases h with
      | top h | bottom h | prop h =>
        exact yields_node h (yields_settle_self hshares hroot hs hid hself)
      | @unary _ arg op a h harg =>
        have hbelow : f.Below root arg := hid.tail (children_of_node? h) (by simp [Node.children])
        refine yields_node h (.bind_run ?_)
        refine (ih hs hbelow harg (by simpa [Expr.height] using hd)).mono ?_
        rintro ⟨arg', s'⟩ g ⟨rfl, rfl, hs'⟩
        dsimp only
        rw [if_pos rfl]
        exact yields_settle_self hshares hroot hs' hid hself
      | @binary _ left right op a b h hleft hright =>
        simp only [Expr.height, Nat.add_le_add_iff_right, Nat.max_le] at hd
        have hbelow : ∀ c ∈ [left, right], f.Below root c :=
          fun c hc => hid.tail (children_of_node? h) hc
        refine yields_node h (.bind_run ((ih hs (hbelow left (by simp)) hleft hd.1).mono ?_))
        rintro ⟨left', s'⟩ g ⟨rfl, rfl, hs'⟩
        refine .bind_run ((ih hs' (hbelow right (by simp)) hright hd.2).mono ?_)
        rintro ⟨right', s''⟩ k ⟨rfl, rfl, hs''⟩
        dsimp only
        rw [if_pos ⟨rfl, rfl⟩]
        exact yields_settle_self hshares hroot hs'' hid hself

/-- Sharing a formula that is shared already changes nothing. -/
theorem share_of_sharesAll {e : Expr} (hshares : f.SharesAll root) (h : f.Denotes root e) :
    share root f = .ok (root, f) := by
  have hyields : Yields (share root) f fun k g => k = root ∧ g = f := by
    refine .bind (.get (.bind ?_))
    have hown : Sharing.Own {} f root := ⟨by simp, by simp⟩
    refine (yields_shareWithin_self hshares h hown (.refl root) h
      (Nat.le_succ_of_le h.height_le)).mono ?_
    rintro ⟨k, s⟩ g ⟨rfl, rfl, -⟩
    exact .pure ⟨rfl, rfl⟩
  obtain ⟨k, g, hshare, rfl, rfl⟩ := hyields
  exact hshare

end Build

/-! ## Sharing in whole forests -/

namespace Forest

/-- **Sharing is maximal and keeps the formula.**  In a whole forest two nodes are found to be equal
if and only if their trees are.  A stored formula can be shared, which keeps everything that is
stored and gives a node for the same formula.  Below it no two nodes are equal, so there are as many
nodes as different subformulas; and sharing it once more gives the same node and adds nothing. -/
theorem share_is_maximal {f : Forest} {root : NodeId} (hf : f.Whole) (hroot : root ∈ f.live) :
    (∀ a ∈ f.live, ∀ b ∈ f.live, ∃ ea eb, f.Denotes a ea ∧ f.Denotes b eb ∧
      f.equal a b = .ok (decide (ea = eb))) ∧
    ∃ e k g ids, f.Denotes root e ∧ Build.share root f = .ok (k, g) ∧
      g.Whole ∧ (∀ id ∈ f.live, g.node? id = f.node? id) ∧
      g.Denotes k e ∧ g.equal k root = .ok true ∧
      g.reachable k = .ok ids ∧ (∀ a ∈ ids, ∀ b ∈ ids, g.equal a b = .ok true → a = b) ∧
      ids.size = e.subformulas.toFinset.card ∧
      Build.share k g = .ok (k, g) := by
  constructor
  · intro a ha b hb
    obtain ⟨ea, hea⟩ := hf.denotes a ha
    obtain ⟨eb, heb⟩ := hf.denotes b hb
    exact ⟨ea, eb, hea, heb, equal_eq_decide hea heb⟩
  · obtain ⟨e, he⟩ := hf.denotes root hroot
    obtain ⟨k, g, hshare, hbuilt, s, hright, hknows⟩ := Build.yields_share_right hf.tidy he
    have hshares := hright.sharesAll hknows
    obtain ⟨ids, hreachable, hids⟩ := exists_reachable hbuilt.denotes
    refine ⟨e, k, g, ids, he, hshare, hf.of_keeps hbuilt.keeps hbuilt.tidy, fun id hid => ?_,
      hbuilt.denotes, equal_of_denotes hbuilt.denotes (hbuilt.keeps.denotes he), hreachable,
      fun a ha b hb heq => ?_, hshares.size_eq hbuilt.denotes hids,
      Build.share_of_sharesAll hshares hbuilt.denotes⟩
    · obtain ⟨node, hnode⟩ := mem_live.1 hid
      rw [hnode, hbuilt.keeps.stored id node hnode]
    · exact hshares.eq_of_equal hbuilt.denotes ((hids a).1 ha) ((hids b).1 hb) heq

/-- A forest is whole if the tree of every stored node can be found. -/
theorem whole_of_trees {f : Forest} (h : f.Tidy)
    (htrees : ∀ id ∈ f.live, (f.tree id).toOption.isSome = true)
    (hpins : ∀ id ∈ f.pins, id ∈ f.live) : f.Whole := by
  refine ⟨h, fun id hid => ?_, hpins⟩
  have htree := htrees id hid
  cases heq : f.tree id with
  | ok e => exact ⟨e, denotes_of_tree heq⟩
  | error => simp [heq, Except.toOption] at htree

/-- The formula `G p & G p` with its second operand stored apart, around an empty slot. -/
def doubled : Forest where
  slots := #[some (.prop "p"), none, some (.prop "p"), some (.unary .global 0),
    some (.unary .global 2), some (.binary .and 3 4)]
  free := [1]

theorem whole_doubled : doubled.Whole :=
  whole_of_trees (by decide) (by decide) (by decide)

/-- The formula `doubled` has equal subformulas in different slots, and its copy has as many nodes
as different subformulas. -/
theorem share_is_maximal_doubled :
    doubled.Whole ∧ 5 ∈ doubled.live ∧
    (∀ a ∈ doubled.live, ∀ b ∈ doubled.live, ∃ ea eb, doubled.Denotes a ea ∧
      doubled.Denotes b eb ∧ doubled.equal a b = .ok (decide (ea = eb))) ∧
    ∃ e k g ids, doubled.Denotes 5 e ∧ Build.share 5 doubled = .ok (k, g) ∧
      g.Whole ∧ (∀ id ∈ doubled.live, g.node? id = doubled.node? id) ∧
      g.Denotes k e ∧ g.equal k 5 = .ok true ∧
      g.reachable k = .ok ids ∧ (∀ a ∈ ids, ∀ b ∈ ids, g.equal a b = .ok true → a = b) ∧
      ids.size = e.subformulas.toFinset.card ∧
      Build.share k g = .ok (k, g) := by
  have hlive : 5 ∈ doubled.live := by decide
  exact ⟨whole_doubled, hlive, share_is_maximal whole_doubled hlive⟩

end Forest

end TemporalCheck
