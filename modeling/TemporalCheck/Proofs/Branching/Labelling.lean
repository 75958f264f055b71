import TemporalCheck.Proofs.Branching.Path
import TemporalCheck.Proofs.NormalForm

/-!
# TemporalCheck.Proofs.Branching.Labelling

Labelling the subformulas of a formula in normal form with the states in which they hold.

* The different subformulas are listed, each of them once and operands before what they are used in;
  every node of the formula has the position of its subformula (`Branching.Subformulas.Lists`,
  `Branching.Subformulas.exists_ofRoot`).
* The states that are marked for a subformula are those in which it holds, if this is so for its
  operands (`Branching.yields_marking`).
* So every subformula gets its states in turn (`Branching.yields_label`).
-/

namespace TemporalCheck

namespace Branching

/-- Where the one of two related lists has an element, the other one has a related element. -/
theorem exists_getElem?_of_forall₂ {α β : Type} {R : α → β → Prop} {xs : List α} {ys : List β}
    {i : Nat} {x : α} (h : List.Forall₂ R xs ys) (hi : xs[i]? = some x) :
    ∃ y, ys[i]? = some y ∧ R x y := by
  obtain ⟨hlt, rfl⟩ := List.getElem?_eq_some_iff.1 hi
  have hlt' : i < ys.length := h.length_eq ▸ hlt
  exact ⟨ys[i], List.getElem?_eq_getElem hlt', (List.forall₂_iff_get.1 h).2 i hlt hlt'⟩

/-! ## The order of subformulas -/

namespace Subformulas

variable {f : Forest} {id : NodeId} {e : Expr} {es : List Expr} {subs : Subformulas}

/-- A node has been visited. -/
def Visits (subs : Subformulas) (id : NodeId) : Prop := (subs.position.lookup id).isSome = true

/-- The formulas that have been listed.  Each listed node stands for one of them, no formula is
listed twice, and those of the operands of a listed node stand before its own.  A node that has been
visited stands for the formula at its position, and its operands have been visited. -/
structure Lists (subs : Subformulas) (f : Forest) (es : List Expr) : Prop where
  denotes : List.Forall₂ f.Denotes subs.order es
  nodup : es.Nodup
  operandsFirst : ∀ i k node, subs.order[i]? = some k → f.node? k = some node →
    ∀ a ∈ node.children, ∀ ea, f.Denotes a ea → ea ∈ es.take i
  visited : ∀ k ∈ subs.order, subs.Visits k
  position : ∀ id i, subs.position.lookup id = some i → ∃ e, es[i]? = some e ∧ f.Denotes id e
  operands : ∀ id node, subs.Visits id → f.node? id = some node → ∀ a ∈ node.children, subs.Visits a

/-- A listed formula has a node in the list. -/
theorem Lists.exists_node {i : Nat} (h : subs.Lists f es) (hi : es[i]? = some e) :
    ∃ k, subs.order[i]? = some k ∧ f.Denotes k e :=
  exists_getElem?_of_forall₂ h.denotes.flip hi

theorem lists_empty (f : Forest) : Lists {} f [] :=
  ⟨.nil, .nil, by simp, by simp, by simp, by simp [Visits]⟩

/-- What has been visited stays so when another node is noted. -/
theorem Visits.cons {x : NodeId} (h : subs.Visits x) (order : List NodeId) (id : NodeId) (i : Nat) :
    Visits ⟨order, (id, i) :: subs.position⟩ x := by
  unfold Visits
  rw [List.lookup_cons]
  split
  · rfl
  · exact h

theorem visits_cons_self (order : List NodeId) (position : List (NodeId × Nat)) (id : NodeId)
    (i : Nat) : Visits ⟨order, (id, i) :: position⟩ id := by
  simp [Visits]

/-- When a node has been noted, those visited are the node and those visited before. -/
theorem eq_or_visits_of_cons {x : NodeId} {order : List NodeId} {position : List (NodeId × Nat)}
    {i : Nat} (h : Visits ⟨order, (id, i) :: position⟩ x) :
    x = id ∨ Visits ⟨order, position⟩ x := by
  obtain ⟨j, hj⟩ := Option.isSome_iff_exists.1 h
  obtain ⟨rfl, -⟩ | hj := Build.eq_or_lookup_of_cons hj
  · exact .inl rfl
  · exact .inr (Option.isSome_iff_exists.2 ⟨j, hj⟩)

/-- The search among listed nodes finds the position of a formula, if it has been listed. -/
theorem find?_cases {ks : List NodeId} (h : f.Denotes id e) (hks : List.Forall₂ f.Denotes ks es) :
    (∃ i, es[i]? = some e ∧ find? f id ks = .ok (some i)) ∨
      e ∉ es ∧ find? f id ks = .ok none := by
  induction hks with
  | nil => exact .inr ⟨by simp, rfl⟩
  | @cons k e' ks es hk _ ih =>
    rw [find?, bind_of_eq_ok (Forest.equal_eq_decide h hk)]
    by_cases he : e = e'
    · subst he
      exact .inl ⟨0, rfl, by simp [pure, Except.pure]⟩
    · rw [decide_eq_false he, if_neg (by simp)]
      obtain ⟨i, hi, hfind⟩ | ⟨hnot, hfind⟩ := ih
      · exact .inl ⟨i + 1, hi, by rw [bind_of_eq_ok hfind]; rfl⟩
      · exact .inr ⟨by simp [he, hnot], by rw [bind_of_eq_ok hfind]; rfl⟩

/-- The positions stay right when a node is noted at the position of its formula. -/
theorem position_cons {i : Nat} (hid : f.Denotes id e) (hi : es[i]? = some e)
    (h : ∀ x j, subs.position.lookup x = some j → ∃ e', es[j]? = some e' ∧ f.Denotes x e')
    {x : NodeId} {j : Nat} (hx : List.lookup x ((id, i) :: subs.position) = some j) :
    ∃ e', es[j]? = some e' ∧ f.Denotes x e' := by
  obtain ⟨rfl, rfl⟩ | hx := Build.eq_or_lookup_of_cons hx
  · exact ⟨e, hi, hid⟩
  · exact h x j hx

/-- The operands of visited nodes stay visited when a node is noted whose operands are visited. -/
theorem Lists.operands_cons {node node' : Node} {order : List NodeId} {i : Nat} {x a : NodeId}
    (h : subs.Lists f es) (hnode : f.node? id = some node)
    (hchildren : ∀ a ∈ node.children, subs.Visits a)
    (hx : Visits ⟨order, (id, i) :: subs.position⟩ x) (hnode' : f.node? x = some node')
    (ha : a ∈ node'.children) : Visits ⟨order, (id, i) :: subs.position⟩ a := by
  have hvisits : subs.Visits a := by
    obtain rfl | hx := eq_or_visits_of_cons hx
    · cases hnode.symm.trans hnode'
      exact hchildren a ha
    · exact h.operands x node' hx hnode' a ha
  exact hvisits.cons order id i

/-- A node is noted whose formula has been listed. -/
theorem Lists.note {node : Node} {i : Nat} (h : subs.Lists f es) (hid : f.Denotes id e)
    (hnode : f.node? id = some node) (hchildren : ∀ a ∈ node.children, subs.Visits a)
    (hi : es[i]? = some e) : Lists ⟨subs.order, (id, i) :: subs.position⟩ f es where
  denotes := h.denotes
  nodup := h.nodup
  operandsFirst := h.operandsFirst
  visited k hk := (h.visited k hk).cons _ _ _
  position _ _ hx := position_cons hid hi h.position hx
  operands _ _ hx hnode' _ ha := h.operands_cons hnode hchildren hx hnode' ha

/-- A node whose operands have been visited comes behind them when it is listed as the next one. -/
theorem Lists.operandsFirst_append {node : Node} (h : subs.Lists f es)
    (hnode : f.node? id = some node) (hchildren : ∀ a ∈ node.children, subs.Visits a) :
    ∀ i k node', (subs.order ++ [id])[i]? = some k → f.node? k = some node' →
      ∀ a ∈ node'.children, ∀ ea, f.Denotes a ea → ea ∈ (es ++ [e]).take i := by
  intro i k node' hi hnode' a ha ea hea
  have hlength := h.denotes.length_eq
  by_cases hlt : i < subs.order.length
  · rw [List.getElem?_append_left hlt] at hi
    rw [List.take_append_of_le_length (by omega)]
    exact h.operandsFirst i k node' hi hnode' a ha ea hea
  · obtain ⟨hle, hk⟩ := List.getElem?_eq_some_iff.1 hi
    obtain rfl : i = es.length := by
      rw [List.length_append, List.length_singleton] at hle
      omega
    simp only [← hlength, List.getElem_concat_length] at hk
    subst hk
    cases hnode.symm.trans hnode'
    obtain ⟨j, hj⟩ := Option.isSome_iff_exists.1 (hchildren a ha)
    obtain ⟨e', he', hden⟩ := h.position a j hj
    rw [List.take_left, hea.unique hden]
    exact List.mem_of_getElem? he'

/-- A formula is listed that has not been listed before. -/
theorem Lists.append {node : Node} (h : subs.Lists f es) (hid : f.Denotes id e)
    (hnode : f.node? id = some node) (hchildren : ∀ a ∈ node.children, subs.Visits a)
    (hnew : e ∉ es) :
    Lists ⟨subs.order ++ [id], (id, subs.order.length) :: subs.position⟩ f (es ++ [e]) where
  denotes := List.rel_append h.denotes (.cons hid .nil)
  nodup := by
    rw [List.nodup_append]
    exact ⟨h.nodup, by simp, by rintro a ha b hb rfl; exact hnew (List.mem_singleton.1 hb ▸ ha)⟩
  operandsFirst := h.operandsFirst_append hnode hchildren
  visited k hk := by
    obtain hk | hk := List.mem_append.1 hk
    · exact (h.visited k hk).cons _ _ _
    · rw [List.mem_singleton.1 hk]
      exact visits_cons_self _ _ _ _
  position _ _ hx := by
    refine position_cons hid (by simp [h.denotes.length_eq]) (fun x j hj => ?_) hx
    obtain ⟨e', he', hden⟩ := h.position x j hj
    obtain ⟨hlt, -⟩ := List.getElem?_eq_some_iff.1 he'
    exact ⟨e', by rw [List.getElem?_append_left hlt, he'], hden⟩
  operands _ _ hx hnode' _ ha := h.operands_cons hnode hchildren hx hnode' ha

/-- What adding the subformulas of a node gives. -/
structure Adds (f : Forest) (id : NodeId) (subs subs' : Subformulas) (es : List Expr) : Prop where
  lists : subs'.Lists f es
  visits : ∀ x, subs.Visits x → subs'.Visits x
  visited : subs'.Visits id
  below : ∀ x ∈ subs'.order, x ∈ subs.order ∨ f.Below id x

/-- A node is added behind its operands, once these have been added. -/
theorem exists_addWithin_succ {node : Node} {depth : Nat} (hs : subs.Lists f es)
    (h : f.Denotes id e) (hnode : f.node? id = some node)
    (hoperands : ∃ subs' es', node.children.foldlM (addWithin f depth) subs = .ok subs' ∧
      subs'.Lists f es' ∧ (∀ x, subs.Visits x → subs'.Visits x) ∧
      (∀ a ∈ node.children, subs'.Visits a) ∧
      ∀ x ∈ subs'.order, x ∈ subs.order ∨ ∃ a ∈ node.children, f.Below a x) :
    ∃ subs' es', addWithin f (depth + 1) subs id = .ok subs' ∧ Adds f id subs subs' es' := by
  by_cases hvisited : (subs.position.lookup id).isSome = true
  · exact ⟨subs, es, if_pos hvisited, hs, fun _ hx => hx, hvisited, fun x hx => .inl hx⟩
  · obtain ⟨⟨order, position⟩, es', hfold, hlists, hvisits, hchildren, hbelow⟩ := hoperands
    have hmore : ∀ x, x ∈ order → x ∈ subs.order ∨ f.Below id x := fun x hx =>
      (hbelow x hx).imp_right fun ⟨a, ha, hax⟩ => .step (Forest.children_of_node? hnode) ha hax
    rw [addWithin, if_neg hvisited, bind_of_eq_ok (Forest.children_of_node? hnode),
      bind_of_eq_ok hfold]
    dsimp only
    obtain ⟨i, hi, hfind⟩ | ⟨hnew, hfind⟩ := find?_cases h hlists.denotes
    · refine ⟨⟨order, (id, i) :: position⟩, es', by rw [bind_of_eq_ok hfind]; rfl,
        hlists.note h hnode hchildren hi, fun x hx => (hvisits x hx).cons _ _ _,
        visits_cons_self _ _ _ _, hmore⟩
    · refine ⟨⟨order ++ [id], (id, order.length) :: position⟩, es' ++ [e],
        by rw [bind_of_eq_ok hfind]; rfl, hlists.append h hnode hchildren hnew,
        fun x hx => (hvisits x hx).cons _ _ _, visits_cons_self _ _ _ _, fun x hx => ?_⟩
      obtain hx | hx := List.mem_append.1 hx
      · exact hmore x hx
      · rw [List.mem_singleton.1 hx]
        exact .inr (.refl id)

/-- A node without operands is added at once. -/
theorem exists_addWithin_of_leaf {node : Node} {depth : Nat} (hs : subs.Lists f es)
    (h : f.Denotes id e) (hnode : f.node? id = some node) (hleaf : node.children = [])
    (hdepth : 0 < depth) :
    ∃ subs' es', addWithin f depth subs id = .ok subs' ∧ Adds f id subs subs' es' := by
  obtain ⟨d, rfl⟩ := Nat.exists_eq_add_of_le' hdepth
  refine exists_addWithin_succ hs h hnode ?_
  rw [hleaf]
  exact ⟨subs, es, rfl, hs, fun _ hx => hx, by simp, fun x hx => .inl hx⟩

/-- The subformulas of a stored formula are added, operands first, if the search may go as deep as
the formula is high. -/
theorem exists_addWithin {depth : Nat} (h : f.Denotes id e) (hdepth : e.height ≤ depth)
    (hs : subs.Lists f es) :
    ∃ subs' es', addWithin f depth subs id = .ok subs' ∧ Adds f id subs subs' es' := by
  induction h generalizing depth subs es with
  | top h => exact exists_addWithin_of_leaf hs (.top h) h rfl hdepth
  | bottom h => exact exists_addWithin_of_leaf hs (.bottom h) h rfl hdepth
  | prop h => exact exists_addWithin_of_leaf hs (.prop h) h rfl hdepth
  | unary h harg ih =>
    obtain ⟨d, rfl⟩ := Nat.exists_eq_add_of_le' (Nat.le_of_add_left_le hdepth)
    obtain ⟨subs', es', hadd, hadds⟩ := ih (Nat.le_of_succ_le_succ hdepth) hs
    refine exists_addWithin_succ hs (.unary h harg) h
      ⟨subs', es', ?_, hadds.lists, hadds.visits, ?_, ?_⟩
    · simp [Node.children, hadd]
    · simpa [Node.children] using hadds.visited
    · simpa [Node.children] using hadds.below
  | binary h hleft hright ihl ihr =>
    obtain ⟨d, rfl⟩ := Nat.exists_eq_add_of_le' (Nat.le_of_add_left_le hdepth)
    have hboth := Nat.max_le.1 (Nat.le_of_succ_le_succ hdepth)
    obtain ⟨subs₁, es₁, hadd₁, hadds₁⟩ := ihl hboth.1 hs
    obtain ⟨subs₂, es₂, hadd₂, hadds₂⟩ := ihr hboth.2 hadds₁.lists
    refine exists_addWithin_succ hs (.binary h hleft hright) h ⟨subs₂, es₂, ?_, hadds₂.lists,
      fun x hx => hadds₂.visits x (hadds₁.visits x hx), ?_, fun x hx => ?_⟩
    · simp [Node.children, hadd₁, hadd₂, bind, Except.bind, pure, Except.pure]
    · simpa [Node.children] using ⟨hadds₂.visits _ hadds₁.visited, hadds₂.visited⟩
    · obtain hx | hx := hadds₂.below x hx
      · exact (hadds₁.below x hx).imp_right fun hb => ⟨_, List.mem_cons_self, hb⟩
      · exact .inr ⟨_, List.mem_cons_of_mem _ List.mem_cons_self, hx⟩

/-- The different subformulas of a formula are listed, each of them once and operands first. -/
theorem exists_ofRoot (h : f.Denotes id e) :
    ∃ subs es, ofRoot f id = .ok subs ∧ subs.Lists f es ∧ subs.Visits id ∧
      ∀ a, a ∈ es ↔ a ∈ e.subformulas := by
  obtain ⟨subs, es, hadd, hadds⟩ :=
    exists_addWithin h (Nat.le_succ_of_le h.height_le) (lists_empty f)
  refine ⟨subs, es, hadd, hadds.lists, hadds.visited, fun a => ⟨fun ha => ?_, fun ha => ?_⟩⟩
  · obtain ⟨i, hi⟩ := List.mem_iff_getElem?.1 ha
    obtain ⟨k, hk, hka⟩ := hadds.lists.exists_node hi
    have hbelow := (hadds.below k (List.mem_of_getElem? hk)).resolve_left List.not_mem_nil
    obtain ⟨e', hmem, he'⟩ := h.of_below hbelow
    rwa [hka.unique he']
  · obtain ⟨k, hbelow, hka⟩ := h.exists_below ha
    -- All nodes below the root have been visited.
    have hvisits : subs.Visits k := by
      refine hbelow.preserves (P := subs.Visits) (fun a found ha hfound b hb => ?_) hadds.visited
      obtain ⟨node, hnode, rfl⟩ := Forest.children_eq_ok_iff.1 hfound
      exact hadds.lists.operands a node ha hnode b hb
    obtain ⟨i, hi⟩ := Option.isSome_iff_exists.1 hvisits
    obtain ⟨e', he', hke'⟩ := hadds.lists.position k i hi
    rw [hka.unique hke']
    exact List.mem_of_getElem? he'

end Subformulas

/-! ## Extents -/

/-- A set holds the declared states in which a formula holds, whichever variables are numbered
later. -/
def IsExtent (m : Model) (vars : Vars) (e : Expr) (set : NatSet) : Prop :=
  ∀ vars', vars.Extends vars' → ∀ s : Nat, s ∈ set ↔ s < m.size ∧ e.HoldsIn (m.toStructure vars') s

variable {m : Model} {vars vars' : Vars} {e : Expr}

theorem IsExtent.mono {set : NatSet} (h : IsExtent m vars e set) (hvars : vars.Extends vars') :
    IsExtent m vars' e set :=
  fun vars'' hvars' => h vars'' (hvars.trans hvars')

/-- It does not matter in which order the states are listed, or how often. -/
theorem IsExtent.ofList {marked : List Nat} (h : ∀ vars', vars.Extends vars' → ∀ s : Nat,
    s ∈ marked ↔ s < m.size ∧ e.HoldsIn (m.toStructure vars') s) :
    IsExtent m vars e (.ofList marked) :=
  fun vars' hvars s => NatSet.mem_ofList.trans (h vars' hvars s)

theorem IsExtent.lt {set : NatSet} {s : Nat} (h : IsExtent m vars e set) (hs : s ∈ set) :
    s < m.size :=
  ((h vars (.refl vars) s).1 hs).1

/-- The states in which a variable holds are found by their names. -/
theorem statesWhere_holds (m : Model) (v : Nat) :
    statesWhere m (fun s => do m.holds (← m.name s) v) =
      .ok ((List.range m.size).filter fun s => decide (v ∈ m.valuation s)) :=
  statesWhere_eq fun _ hs => Model.holds_name_of_lt hs v

/-- The states with a successor in a set are found by the names of the states. -/
theorem statesWhere_next (m : Model) (holds : Lookup) :
    statesWhere m (fun s => return (← m.successorIds s).any holds.has) =
      .ok ((List.range m.size).filter fun s => (m.targets s).any holds.has) :=
  statesWhere_eq fun _ hs => bind_of_eq_ok (Model.successorIds_of_lt hs)

/-- The states marked for a subformula are those in which it holds. -/
theorem yields_marking (htotal : m.IsTotal) {c : Context} {id : NodeId} {node : Node}
    (h : c.forest.Denotes id e) (hnode : c.forest.node? id = some node)
    (hnormal : e.IsBranchingNormal) {operand : Nat → Except Fault NatSet}
    (hoperand : ∀ k a, node.children[k]? = some a → ∀ e', c.forest.Denotes a e' →
      ∃ set, operand k = .ok set ∧ IsExtent m c.vars e' set) :
    Yields (marking m operand node) c fun marked c' =>
      c.Grows c' ∧ IsExtent m c'.vars e (.ofList marked) := by
  cases h with
  | top h => exact hnormal.elim
  | bottom h =>
    rw [h] at hnode
    cases hnode
    refine .pure ⟨.refl c, fun vars' _ s => ?_⟩
    simp [Expr.HoldsIn]
  | @prop _ name h =>
    rw [h] at hnode
    cases hnode
    refine .bind ((Work.yields_var name c).mono fun v c' hv => ?_)
    refine .lift_work (statesWhere_holds m v) ⟨hv.1, .ofList fun vars' hvars s => ?_⟩
    rw [List.mem_filter, List.mem_range, decide_eq_true_eq]
    refine and_congr_right fun _ => Iff.trans ?_ (m.toStructure_holds_eq vars' s name).symm
    simp [hvars.index? hv.2]
  | @unary _ arg op a h harg =>
    rw [h] at hnode
    cases hnode
    obtain ⟨set, hset, hext⟩ := hoperand 0 arg rfl a harg
    cases op with
    | not =>
      exact .bind (.lift_work hset (.pure ⟨.refl c, .ofList fun vars' hvars s =>
        mem_not (hext vars' hvars)⟩))
    | existsNext =>
      exact .bind (.lift_work hset (.lift_work (statesWhere_next m _) ⟨.refl c,
        .ofList fun vars' hvars s => mem_existsNext htotal (hext vars' hvars)⟩))
    | allFinally =>
      obtain ⟨marked, hmarked, hleast⟩ := exists_leastMarks (answers_finallyReason m set)
      exact .bind (.lift_work hset (.lift_work hmarked ⟨.refl c, .ofList fun vars' hvars s =>
        mem_allFinally hleast (hext vars' hvars)⟩))
    | _ => exact hnormal.elim
  | @binary _ left right op a b h hleft hright =>
    rw [h] at hnode
    cases hnode
    obtain ⟨set₁, hset₁, hext₁⟩ := hoperand 0 left rfl a hleft
    obtain ⟨set₂, hset₂, hext₂⟩ := hoperand 1 right rfl b hright
    cases op with
    | and =>
      refine .bind (.lift_work hset₁ (.bind (.lift_work hset₂ ?_)))
      exact .pure ⟨.refl c, .ofList fun vars' hvars s =>
        mem_and (hext₁ vars' hvars) (hext₂ vars' hvars)⟩
    | existsUntil =>
      obtain ⟨marked, hmarked, hleast⟩ := exists_leastMarks (answers_untilReason m set₁ set₂)
      refine .bind (.lift_work hset₁ (.bind (.lift_work hset₂ ?_)))
      exact .lift_work hmarked ⟨.refl c, .ofList fun vars' hvars s =>
        mem_existsUntil hleast htotal (hext₁ vars' hvars) (hext₂ vars' hvars)⟩
    | _ => exact hnormal.elim

/-! ## Labelling -/

variable {c c' : Context} {done es : List Expr} {subs : Subformulas} {l : Labelling}

/-- The marks of a visited node are found where those of its formula have been put. -/
theorem exists_marksOf {R : Expr → NatSet → Prop} {f : Forest} {id : NodeId} {n : Nat}
    (hs : subs.Lists f es) (hmarks : List.Forall₂ R (es.take n) l.marks) (hid : f.Denotes id e)
    (hvisits : subs.Visits id) (hmem : e ∈ es.take n) :
    ∃ set, l.marksOf subs id = .ok set ∧ R e set := by
  obtain ⟨i, hi⟩ := Option.isSome_iff_exists.1 hvisits
  obtain ⟨e', he', hden⟩ := hs.position id i hi
  obtain rfl := hid.unique hden
  obtain ⟨j, hj⟩ := List.mem_iff_getElem?.1 hmem
  -- The formula is listed once, so that its marks stand at the position of the node.
  obtain rfl : i = j := by
    obtain ⟨hlt, -⟩ := List.getElem?_eq_some_iff.1 he'
    have hj' := hj
    rw [List.getElem?_take, Option.ite_none_right_eq_some] at hj'
    exact (List.getElem?_inj hlt hs.nodup).1 (he'.trans hj'.2.symm)
  obtain ⟨set, hset, hR⟩ := exists_getElem?_of_forall₂ hmarks hj
  exact ⟨set, by simp [Labelling.marksOf, hi, hset], hR⟩

/-- The marks of an operand are those of the node that the operand is. -/
theorem operand_eq {f : Forest} {id a : NodeId} {node : Node} {k : Nat}
    (hnode : f.node? id = some node) (ha : node.children[k]? = some a) :
    l.operand subs f id k = l.marksOf subs a := by
  have hchild : f.child id k = .ok a := by
    simp [Forest.child, Forest.children_of_node? hnode, bind, Except.bind, ha, pure, Except.pure]
  rw [Labelling.operand, bind_of_eq_ok hchild]

/-- The first subformulas of a list have been labelled with the states in which they hold. -/
structure Labels (m : Model) (c c' : Context) (done : List Expr) (l : Labelling) : Prop where
  learns : c.Learns c'
  extents : List.Forall₂ (IsExtent m c'.vars) done l.marks

/-- A line reports the mark of a state for a subformula: it gives the name of the state and the text
of the subformula. -/
def Reports (m : Model) (text : String) (s : Nat) (line : String) : Prop :=
  ∃ name st, m.states[s]? = some (name, st) ∧
    line = "  +" ++ Text.alignRight 2 (toString name) ++ ": " ++ text

/-- Every state with a number has a line that reports it. -/
theorem yields_progress (m : Model) (text : String) {marked : List Nat}
    (h : ∀ s ∈ marked, s < m.size) :
    Yields (marked.mapM fun s => liftM (progressLine m text s) : Work (List String)) c
      fun lines c' => c' = c ∧ List.Forall₂ (Reports m text) marked lines := by
  induction marked with
  | nil => exact .pure ⟨rfl, .nil⟩
  | cons s marked ih =>
    have hlt : s < m.states.length := h s List.mem_cons_self
    have hs : m.states[s]? = some m.states[s] := List.getElem?_eq_getElem hlt
    have hline : progressLine m text s =
        .ok ("  +" ++ Text.alignRight 2 (toString m.states[s].1) ++ ": " ++ text) := by
      simp [progressLine, Model.name, hs, bind, Except.bind, pure, Except.pure]
    rw [List.mapM_cons]
    refine .bind (.lift_work hline (.bind ?_))
    refine (ih fun t ht => h t (List.mem_cons_of_mem s ht)).mono fun lines c' hlines => .pure ?_
    exact ⟨hlines.1, .cons ⟨_, _, hs, rfl⟩ hlines.2⟩

/-- One more subformula has got its marks. -/
theorem Labels.append {c₁ : Context} {e : Expr} {set : NatSet} {l' : Labelling}
    (hl : Labels m c c' done l) (hlearns : c'.Learns c₁) (hext : IsExtent m c₁.vars e set)
    (hl' : l'.marks = l.marks ++ [set]) : Labels m c c₁ (done ++ [e]) l' :=
  ⟨hl.learns.trans hlearns, hl' ▸ List.rel_append
    (hl.extents.imp fun _ _ h => h.mono hlearns.vars) (.cons hext .nil)⟩

/-- Labelling the next subformula. -/
theorem Labels.yields_add (htotal : m.IsTotal) (hs : subs.Lists c.forest es)
    (hnormal : ∀ e ∈ es, e.IsBranchingNormal) {n : Nat} {id : NodeId}
    (hid : subs.order[n]? = some id) (showProgress : Bool) (hl : Labels m c c' (es.take n) l) :
    Yields (l.add m subs showProgress id) c' fun l' c'' => Labels m c c'' (es.take (n + 1)) l' := by
  obtain ⟨e, he, hden⟩ := exists_getElem?_of_forall₂ hs.denotes hid
  obtain ⟨node, hnode⟩ := hden.exists_node
  have hnode' : c'.forest.node? id = some node := by rwa [hl.learns.forest_eq]
  refine .bind ((Work.yields_node hnode').mono fun node' c₁ h => ?_)
  obtain ⟨rfl, rfl⟩ := h
  extract_lets label
  have hlabel : ∀ unused c₂, c₁.Learns c₂ → Yields (label unused) c₂ fun l' c₃ =>
      Labels m c c₃ (es.take (n + 1)) l' := by
    intro unused c₂ hlearns
    have hforest := (hl.learns.trans hlearns).forest_eq
    have hmarks : ∀ k a, node'.children[k]? = some a → ∀ ea, c₂.forest.Denotes a ea →
        ∃ set, l.operand subs c₂.forest id k = .ok set ∧ IsExtent m c₂.vars ea set := by
      intro k a ha ea hea
      rw [hforest] at hea ⊢
      have hmem := List.mem_of_getElem? ha
      have hvisits := hs.operands id node' (hs.visited id (List.mem_of_getElem? hid)) hnode a hmem
      obtain ⟨set, hset, hext⟩ := exists_marksOf hs hl.extents hea hvisits
        (hs.operandsFirst n id node' hid hnode a hmem ea hea)
      exact ⟨set, (operand_eq hnode ha).trans hset, hext.mono hlearns.vars⟩
    have hden₂ : c₂.forest.Denotes id e := hforest.symm ▸ hden
    have hnode₂ : c₂.forest.node? id = some node' := hforest.symm ▸ hnode
    refine .bind (.get (.bind ?_))
    refine (yields_marking htotal hden₂ hnode₂ (hnormal e (List.mem_of_getElem? he)) hmarks).mono
      fun marked c₃ h => ?_
    obtain ⟨hgrows, hext⟩ := h
    have hdone : ∀ l', l'.marks = l.marks ++ [.ofList marked] →
        Labels m c c₃ (es.take (n + 1)) l' := by
      intro l' hl'
      rw [List.take_add_one, he]
      exact hl.append (hlearns.trans (.of_grows hgrows)) hext hl'
    split
    · have htext := Formula.renderNode_of_denotes (hgrows.forest_eq.symm ▸ hden₂)
      have hlt : ∀ s ∈ marked, s < m.size := fun s hs => hext.lt (NatSet.mem_ofList.2 hs)
      refine .bind (.get (.bind (.lift_work htext (.bind ?_))))
      exact (yields_progress m _ hlt).mono fun progress c₄ h => h.1 ▸ .pure (hdone _ rfl)
    · exact .pure (hdone _ rfl)
  cases node' with
  | prop name => exact .bind ((m.yields_filterM_reportUnused [name] c₁).mono hlabel)
  | _ => exact .bind (.pure (hlabel [] c₁ (.refl c₁)))

/-- Labelling all subformulas. -/
theorem yields_label (htotal : m.IsTotal) (hs : subs.Lists c.forest es)
    (hnormal : ∀ e ∈ es, e.IsBranchingNormal) (showProgress : Bool) :
    Yields (label m subs showProgress) c fun l c' => Labels m c c' es l := by
  have hrun : Yields (label m subs showProgress) c
      fun l c' => Labels m c c' (es.take subs.order.length) l := by
    refine .foldlM (fun done l c' => Labels m c c' (es.take done.length) l) ⟨.refl c, .nil⟩
      fun done id rest l c' horder hl => ?_
    rw [List.length_append, List.length_singleton]
    exact hl.yields_add htotal hs hnormal (by simp [horder]) showProgress
  rwa [hs.denotes.length_eq, List.take_length] at hrun

end Branching

end TemporalCheck
