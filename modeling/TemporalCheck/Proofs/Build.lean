import TemporalCheck.Proofs.Forest
import TemporalCheck.Proofs.Outcome

/-!
# TemporalCheck.Proofs.Build

Building never goes wrong in a tidy forest.  Every operation here keeps what was stored before,
leaves the forest tidy, and gives a node that stands for a known formula; the three facts are put
together in `Built`.  A copy stands for the formula that was copied and shares no node with anything
that was there before (`Copied`).  A formula whose equal subformulas have been made one node stands
for the same formula, too, and all of its nodes have been met on the way (`Shared`).
-/

namespace TemporalCheck

/-- What building a formula `e` in a forest `f` ends in: the number of its node, and a forest with
everything that was stored before. -/
structure Built (f : Forest) (e : Expr) (id : NodeId) (g : Forest) : Prop where
  keeps : f.Keeps g
  tidy : g.Tidy
  denotes : g.Denotes id e

theorem Built.trans {f g h : Forest} {e e' : Expr} {id id' : NodeId} (hfg : Built f e id g)
    (hgh : Built g e' id' h) : Built f e' id' h :=
  ⟨hfg.keeps.trans hgh.keeps, hgh.tidy, hgh.denotes⟩

/-- A node that is there already. -/
theorem Built.refl {f : Forest} {e : Expr} {id : NodeId} (hf : f.Tidy) (h : f.Denotes id e) :
    Built f e id f :=
  ⟨.refl f, hf, h⟩

/-- A node and the trees of its operands make up a tree. -/
inductive Node.Makes (f : Forest) : Node → Expr → Prop
  | top : Makes f .top .top
  | bottom : Makes f .bottom .bottom
  | prop (name : String) : Makes f (.prop name) (.prop name)
  | unary {arg : NodeId} {a : Expr} (op : UnaryOp) (h : f.Denotes arg a) :
    Makes f (.unary op arg) (.unary op a)
  | binary {left right : NodeId} {a b : Expr} (op : BinaryOp) (hl : f.Denotes left a)
    (hr : f.Denotes right b) : Makes f (.binary op left right) (.binary op a b)

namespace Forest

variable {f g : Forest}

/-- A node stands for a formula if and only if what its slot holds makes that formula of what its
operands stand for. -/
theorem denotes_iff_exists_makes {id : NodeId} {e : Expr} :
    f.Denotes id e ↔ ∃ node, f.node? id = some node ∧ node.Makes f e := by
  constructor
  · intro h
    cases h with
    | top h => exact ⟨_, h, .top⟩
    | bottom h => exact ⟨_, h, .bottom⟩
    | prop h => exact ⟨_, h, .prop _⟩
    | unary h ha => exact ⟨_, h, .unary _ ha⟩
    | binary h hl hr => exact ⟨_, h, .binary _ hl hr⟩
  · rintro ⟨node, h, hm⟩
    cases hm with
    | top => exact .top h
    | bottom => exact .bottom h
    | prop name => exact .prop h
    | unary op ha => exact .unary h ha
    | binary op hl hr => exact .binary h hl hr

/-- What a node makes up stays the same when a forest keeps the slots it has filled. -/
theorem makes_mono (keeps : ∀ id node, f.node? id = some node → g.node? id = some node)
    {node : Node} {e : Expr} (hm : node.Makes f e) : node.Makes g e := by
  cases hm with
  | top => exact .top
  | bottom => exact .bottom
  | prop name => exact .prop name
  | unary op ha => exact .unary op (ha.mono keeps)
  | binary op hl hr => exact .binary op (hl.mono keeps) (hr.mono keeps)

theorem Keeps.makes (h : f.Keeps g) {node : Node} {e : Expr} (hm : node.Makes f e) :
    node.Makes g e :=
  makes_mono h.stored hm

/-- A node whose operands are stored can be added. -/
theorem built_add (hf : f.Tidy) {node : Node} {e : Expr} (hm : node.Makes f e) :
    Built f e (f.add node).1 (f.add node).2 := by
  have hstored : ∀ id stored, f.node? id = some stored →
      (f.add node).2.node? id = some stored := fun _ _ => node?_add_of_some hf node
  have hdenotes : (f.add node).2.Denotes (f.add node).1 e :=
    denotes_iff_exists_makes.2 ⟨node, node?_add_self hf node, makes_mono hstored hm⟩
  refine ⟨⟨hstored, fun id stored hnone hsome => ?_, pins_add f node⟩, hf.add node, hdenotes⟩
  rw [node?_add hf, hnone] at hsome
  split at hsome
  · next hid => exact ⟨e, hid ▸ hdenotes⟩
  · cases hsome

/-- A slot that is empty at the end was empty before. -/
theorem Keeps.node?_eq_none (h : f.Keeps g) {id : NodeId} (hid : g.node? id = none) :
    f.node? id = none := by
  cases hnode : f.node? id with
  | none => rfl
  | some node => simp [h.stored id node hnode] at hid

/-- Nothing new gets below a formula that was stored before. -/
theorem Keeps.below (h : f.Keeps g) {id below : NodeId} {e : Expr} (he : f.Denotes id e)
    (hbelow : g.Below id below) : f.Below id below := by
  refine hbelow.preserves (P := f.Below id) (fun a found ha hfound b hb => ?_) (.refl id)
  obtain ⟨_, -, hd⟩ := he.of_below ha
  obtain ⟨node, hnode⟩ := hd.exists_node
  rw [children_of_node? (h.stored a node hnode), ← children_of_node? hnode] at hfound
  exact ha.tail hfound hb

/-- A planted tree is stored. -/
theorem built_plant (hf : f.Tidy) (e : Expr) : Built f e (f.plant e).1 (f.plant e).2 := by
  induction e generalizing f with
  | top => exact built_add hf .top
  | bottom => exact built_add hf .bottom
  | prop name => exact built_add hf (.prop name)
  | unary op a ih =>
    have ha := ih hf
    exact ha.trans (built_add ha.tidy (.unary op ha.denotes))
  | binary op a b iha ihb =>
    have ha := iha hf
    have hb := ihb ha.tidy
    have hadd := built_add hb.tidy (.binary op (hb.keeps.denotes ha.denotes) hb.denotes)
    exact (ha.trans hb).trans hadd

/-- Planting several trees keeps what is stored. -/
theorem keeps_plantAll (hf : f.Tidy) (trees : List Expr) :
    f.Keeps (f.plantAll trees) ∧ (f.plantAll trees).Tidy := by
  induction trees generalizing f with
  | nil => exact ⟨.refl f, hf⟩
  | cons tree trees ih =>
    have htree := built_plant hf tree
    obtain ⟨hkeeps, htidy⟩ := ih htree.tidy
    exact ⟨htree.keeps.trans hkeeps, htidy⟩

end Forest

namespace Build

open Forest

variable {f : Forest}

theorem yields_add (hf : f.Tidy) {node : Node} {e : Expr} (hm : node.Makes f e) :
    Yields (add node) f (Built f e) :=
  .modifyGet (built_add hf hm)

theorem yields_node {id : NodeId} {stored : Node} {Q : Node → Forest → Prop}
    (h : f.node? id = some stored) (hq : Q stored f) : Yields (node id) f Q :=
  .bind (.get (.lift (get_of_node? h) hq))

/-! ## Copies -/

/-- What copying a formula ends in: a formula of which no node was there before. -/
structure Copied (f : Forest) (e : Expr) (id : NodeId) (g : Forest) : Prop extends
    Built f e id g where
  below_new : ∀ below, g.Below id below → f.node? below = none

/-- A node of which all operands are new is new all the way down. -/
theorem copied_add {g : Forest} {node : Node} {e : Expr} (hfg : f.Keeps g) (hg : g.Tidy)
    (hm : node.Makes g e)
    (hnew : ∀ c ∈ node.children, ∀ below, g.Below c below → f.node? below = none) :
    Copied f e (g.add node).1 (g.add node).2 := by
  have hadd := built_add hg hm
  have hsmall : ∀ c ∈ node.children, ∃ a, g.Denotes c a := by
    cases hm with
    | top | bottom | prop => simp [Node.children]
    | unary op ha => simpa [Node.children] using ⟨_, ha⟩
    | binary op hl hr => simpa [Node.children] using ⟨⟨_, hl⟩, _, hr⟩
  refine ⟨⟨hfg.trans hadd.keeps, hadd.tidy, hadd.denotes⟩, fun below hbelow => ?_⟩
  cases hbelow with
  | refl => exact hfg.node?_eq_none (node?_add_fst hg node)
  | step hchildren hmem hrest =>
    rw [children_of_node? (node?_add_self hg node), Except.ok.injEq] at hchildren
    subst hchildren
    obtain ⟨a, ha⟩ := hsmall _ hmem
    exact hnew _ hmem below (hadd.keeps.below ha hrest)

theorem copied_leaf {node : Node} {e : Expr} (hf : f.Tidy) (hm : node.Makes f e)
    (hleaf : node.children = []) : Copied f e (f.add node).1 (f.add node).2 :=
  copied_add (.refl f) hf hm (by simp [hleaf])

/-- A copy of a formula stands for the same formula. -/
theorem yields_copyWithin {d : Nat} {id : NodeId} {e : Expr} (hf : f.Tidy) (h : f.Denotes id e)
    (hd : e.height ≤ d) : Yields (copyWithin d id) f (Copied f e) := by
  induction d generalizing f id e with
  | zero => exact absurd hd (Nat.not_le_of_lt e.height_pos)
  | succ d ih =>
    unfold copyWithin
    refine .bind ?_
    cases h with
    | top h => exact yields_node h (.modifyGet (copied_leaf hf .top rfl))
    | bottom h => exact yields_node h (.modifyGet (copied_leaf hf .bottom rfl))
    | prop h => exact yields_node h (.modifyGet (copied_leaf hf (.prop _) rfl))
    | unary h harg =>
      refine yields_node h (.bind ((ih hf harg (by simpa [Expr.height] using hd)).mono ?_))
      intro arg' g hg
      refine .modifyGet (copied_add hg.keeps hg.tidy (.unary _ hg.denotes) fun c hc => ?_)
      rw [List.mem_singleton.1 hc]
      exact hg.below_new
    | binary h hleft hright =>
      simp only [Expr.height, Nat.add_le_add_iff_right, Nat.max_le] at hd
      refine yields_node h (.bind ((ih hf hleft hd.1).mono fun left' g hg => ?_))
      refine .bind ((ih hg.tidy (hg.keeps.denotes hright) hd.2).mono fun right' k hk => ?_)
      have hleft' : k.Denotes left' _ := hk.keeps.denotes hg.denotes
      refine .modifyGet (copied_add (hg.keeps.trans hk.keeps) hk.tidy
        (.binary _ hleft' hk.denotes) fun c hc below hbelow => ?_)
      obtain rfl | rfl : c = left' ∨ c = right' := by simpa [Node.children] using hc
      · exact hg.below_new below (hk.keeps.below hg.denotes hbelow)
      · exact hg.keeps.node?_eq_none (hk.below_new below hbelow)

theorem yields_copy {id : NodeId} {e : Expr} (hf : f.Tidy) (h : f.Denotes id e) :
    Yields (copy id) f (Copied f e) :=
  .bind (.get (yields_copyWithin hf h (Nat.le_succ_of_le h.height_le)))

/-! ## Sharing -/

/-- What is found in a table with one more entry is that entry or has been there before. -/
theorem eq_or_lookup_of_cons {α : Type} {table : List (NodeId × α)} {id x : NodeId} {a b : α}
    (h : List.lookup x ((id, a) :: table) = some b) : x = id ∧ a = b ∨ table.lookup x = some b := by
  rw [List.lookup_cons] at h
  split at h
  · next heq => exact .inl ⟨beq_iff_eq.1 heq, Option.some.inj h⟩
  · exact .inr h

/-- What is noted during sharing is right: known nodes stand for different formulas and have known
operands; and a node that has been visited and the one that stands for it, which is known, are the
same formula. -/
structure Sharing.Right (s : Sharing) (f : Forest) : Prop where
  denotes : ∀ k ∈ s.known, ∃ e, f.Denotes k e
  unique : ∀ k ∈ s.known, ∀ k' ∈ s.known, ∀ e, f.Denotes k e → f.Denotes k' e → k = k'
  operands : ∀ k ∈ s.known, ∀ node, f.node? k = some node → ∀ c ∈ node.children, c ∈ s.known
  done : ∀ id k, s.done.lookup id = some k → k ∈ s.known ∧ ∃ e, f.Denotes id e ∧ f.Denotes k e

namespace Sharing

variable {s : Sharing} {k : NodeId}

theorem right_empty (f : Forest) : Right {} f :=
  ⟨by simp, by simp, by simp, by simp⟩

/-- What has been shared so far stays right when nodes are added. -/
theorem Right.mono {g : Forest} (h : s.Right f) (hk : f.Keeps g) : s.Right g := by
  refine ⟨fun k hmem => ?_, fun k hmem k' hmem' e he he' => ?_, fun k hmem node hnode => ?_,
    fun id k hl => ?_⟩
  · obtain ⟨e, he⟩ := h.denotes k hmem
    exact ⟨e, hk.denotes he⟩
  · obtain ⟨a, ha⟩ := h.denotes k hmem
    obtain ⟨b, hb⟩ := h.denotes k' hmem'
    obtain rfl := (hk.denotes ha).unique he
    obtain rfl := (hk.denotes hb).unique he'
    exact h.unique k hmem k' hmem' _ ha hb
  · obtain ⟨e, he⟩ := h.denotes k hmem
    obtain ⟨node', hnode'⟩ := he.exists_node
    cases (hk.stored k node' hnode').symm.trans hnode
    exact h.operands k hmem node hnode'
  · obtain ⟨hknows, e, hid, hke⟩ := h.done id k hl
    exact ⟨hknows, e, hk.denotes hid, hk.denotes hke⟩

/-- Noting which known node stands for a node. -/
theorem Right.note {id : NodeId} {e : Expr} (h : s.Right f) (hmem : k ∈ s.known)
    (hid : f.Denotes id e) (hk : f.Denotes k e) :
    Right { s with done := (id, k) :: s.done } f := by
  refine { h with done := fun id' k' hl => ?_ }
  obtain ⟨rfl, rfl⟩ | hl := eq_or_lookup_of_cons hl
  · exact ⟨hmem, e, hid, hk⟩
  · exact h.done id' k' hl

/-- Meeting a formula for the first time, when its operands are known. -/
theorem Right.meet {node : Node} {e : Expr} (h : s.Right f) (hk : f.Denotes k e)
    (hnew : ∀ k' ∈ s.known, ¬ f.Denotes k' e) (hnode : f.node? k = some node)
    (hoperands : ∀ c ∈ node.children, c ∈ s.known) :
    Right { s with known := s.known ++ [k] } f := by
  have hcases : ∀ x, x ∈ s.known ++ [k] → x ∈ s.known ∨ x = k := by simp
  refine ⟨fun x hx => ?_, fun x hx y hy e' hxe hye => ?_, fun x hx node' hx' c hc => ?_,
    fun id x hl => ?_⟩
  · obtain hx | rfl := hcases x hx
    · exact h.denotes x hx
    · exact ⟨e, hk⟩
  · obtain hx' | rfl := hcases x hx <;> obtain hy' | rfl := hcases y hy
    · exact h.unique x hx' y hy' e' hxe hye
    · exact absurd (hye.unique hk ▸ hxe) (hnew x hx')
    · exact absurd (hxe.unique hk ▸ hye) (hnew y hy')
    · rfl
  · obtain hx | rfl := hcases x hx
    · exact List.mem_append_left _ (h.operands x hx node' hx' c hc)
    · cases hnode.symm.trans hx'
      exact List.mem_append_left _ (hoperands c hc)
  · obtain ⟨hmem, hsame⟩ := h.done id x hl
    exact ⟨List.mem_append_left _ hmem, hsame⟩

end Sharing

/-- What sharing a formula ends in: a known node that stands for it. -/
structure Shared (f : Forest) (s : Sharing) (e : Expr) (p : NodeId × Sharing) (g : Forest) :
    Prop where
  built : Built f e p.1 g
  right : p.2.Right g
  mem : p.1 ∈ p.2.known
  sub : s.known ⊆ p.2.known

theorem Shared.of_built {g h : Forest} {s s' : Sharing} {a e : Expr} {id : NodeId}
    {p : NodeId × Sharing} (hp : Shared g s' e p h) (hfg : Built f a id g)
    (hs : s.known ⊆ s'.known) : Shared f s e p h :=
  ⟨hfg.trans hp.built, hp.right, hp.mem, List.Subset.trans hs hp.sub⟩

/-- Settling on a node for a formula: the search for a known node comes first. -/
theorem yields_settle_of_find {s : Sharing} {id candidate : NodeId} {found : Option NodeId}
    {Q : NodeId × Sharing → Forest → Prop}
    (hfind : s.known.findM? (f.equal · candidate) = .ok found)
    (hsome : ∀ k, found = some k → Q (k, { s with done := (id, k) :: s.done }) f)
    (hnone : found = none →
      Q (candidate, ⟨s.known ++ [candidate], (id, candidate) :: s.done⟩) f) :
    Yields (settle id candidate s) f Q := by
  have hlift : (liftM (s.known.findM? (f.equal · candidate)) : StateT Sharing Build _) s f =
      .ok ((found, s), f) := by
    rw [hfind]
    rfl
  refine .bind_run ⟨(s, s), f, rfl, .bind_run ⟨(f, s), f, rfl, .bind_run ⟨_, f, hlift, ?_⟩⟩⟩
  cases found with
  | some k => exact ⟨_, f, rfl, hsome k rfl⟩
  | none => exact ⟨_, f, rfl, hnone rfl⟩

/-- Settling on a node for a formula: the node that is chosen stands for the formula. -/
theorem yields_settle {s : Sharing} {id candidate : NodeId} {node : Node} {e : Expr}
    (hf : f.Tidy) (hs : s.Right f) (hid : f.Denotes id e)
    (hc : f.node? candidate = some node) (hm : node.Makes f e)
    (hoperands : ∀ c ∈ node.children, c ∈ s.known) :
    Yields (settle id candidate s) f (Shared f s e) := by
  have hcand : f.Denotes candidate e := denotes_iff_exists_makes.2 ⟨node, hc, hm⟩
  obtain ⟨k, hmem, hk, hfind⟩ | ⟨hnone, hfind⟩ := findM?_equal hs.denotes hcand
  · refine yields_settle_of_find hfind (fun k' h => ?_) (by simp)
    cases h
    exact ⟨.refl hf hk, hs.note hmem hid hk, hmem, List.Subset.refl _⟩
  · have hright := (hs.meet hcand hnone hc hoperands).note (by simp) hid hcand
    refine yields_settle_of_find hfind (by simp) fun _ => ?_
    exact ⟨.refl hf hcand, hright, by simp, List.subset_append_left _ _⟩

/-- Settling on a node whose operands have been shared: the candidate is the node itself if its
operands are the shared ones, else a new node. -/
theorem yields_settle_or_add {same : Prop} [Decidable same] {s : Sharing} {id : NodeId}
    {node : Node} {e : Expr} (hf : f.Tidy) (hs : s.Right f) (hid : f.Denotes id e)
    (hsame : same → f.node? id = some node) (hm : node.Makes f e)
    (hoperands : ∀ c ∈ node.children, c ∈ s.known) :
    Yields ((if same then do
        let candidate ← pure id
        settle id candidate
      else do
        let candidate ← liftM (add node)
        settle id candidate : StateT Sharing Build NodeId) s) f (Shared f s e) := by
  split
  · next h => exact yields_settle hf hs hid (hsame h) hm hoperands
  · have hadd := built_add hf hm
    refine .bind_run (.lift_run (Yields.modifyGet ?_))
    refine (yields_settle (hf.add node) (hs.mono hadd.keeps) (hadd.keeps.denotes hid)
      (node?_add_self hf node) (hadd.keeps.makes hm) hoperands).mono fun p g hp => ?_
    exact hp.of_built hadd (List.Subset.refl _)

/-- A shared formula is the same formula. -/
theorem yields_shareWithin {d : Nat} {id : NodeId} {e : Expr} {s : Sharing} (hf : f.Tidy)
    (hs : s.Right f) (h : f.Denotes id e) (hd : e.height ≤ d) :
    Yields (shareWithin d id s) f (Shared f s e) := by
  induction d generalizing f id e s with
  | zero => exact absurd hd (Nat.not_le_of_lt e.height_pos)
  | succ d ih =>
    unfold shareWithin
    refine .bind_run ⟨(s, s), f, rfl, ?_⟩
    dsimp only
    cases hl : s.done.lookup id with
    | some k =>
      obtain ⟨hmem, e', hid, hk⟩ := hs.done id k hl
      rw [hid.unique h] at hk
      exact ⟨(k, s), f, rfl, .refl hf hk, hs, hmem, List.Subset.refl _⟩
    | none =>
      refine .bind_run (.lift_run ?_)
      have hself := h
      cases h with
      | top h =>
        exact yields_node h (yields_settle hf hs hself h .top (by simp [Node.children]))
      | bottom h =>
        exact yields_node h (yields_settle hf hs hself h .bottom (by simp [Node.children]))
      | prop h =>
        exact yields_node h (yields_settle hf hs hself h (.prop _) (by simp [Node.children]))
      | @unary _ arg op a h harg =>
        refine yields_node h (.bind_run ?_)
        refine (ih hf hs harg (by simpa [Expr.height] using hd)).mono ?_
        rintro ⟨arg', s'⟩ g ⟨hg, hs', hmem, hsub⟩
        refine (yields_settle_or_add hg.tidy hs' (hg.keeps.denotes hself) (fun heq => ?_)
          (.unary op hg.denotes) (by simpa [Node.children] using hmem)).mono
            fun p k hp => hp.of_built hg hsub
        exact heq ▸ hg.keeps.stored id _ h
      | @binary _ left right op a b h hleft hright =>
        simp only [Expr.height, Nat.add_le_add_iff_right, Nat.max_le] at hd
        refine yields_node h (.bind_run ((ih hf hs hleft hd.1).mono ?_))
        rintro ⟨left', s'⟩ g ⟨hg, hs', hmem', hsub'⟩
        refine .bind_run ((ih hg.tidy hs' (hg.keeps.denotes hright) hd.2).mono ?_)
        rintro ⟨right', s''⟩ k ⟨hk, hs'', hmem'', hsub''⟩
        have hfk := hg.keeps.trans hk.keeps
        have hoperands : ∀ c ∈ (Node.binary op left' right').children, c ∈ s''.known := by
          simpa [Node.children] using ⟨hsub'' hmem', hmem''⟩
        refine (yields_settle_or_add hk.tidy hs'' (hfk.denotes hself) (fun heq => ?_)
          (.binary op (hk.keeps.denotes hg.denotes) hk.denotes) hoperands).mono
            fun p l hp => hp.of_built (hg.trans hk) (List.Subset.trans hsub' hsub'')
        obtain ⟨rfl, rfl⟩ := heq
        exact hfk.stored id _ h

/-- The nodes of a shared formula are known ones. -/
theorem yields_share_right {id : NodeId} {e : Expr} (hf : f.Tidy) (h : f.Denotes id e) :
    Yields (share id) f fun k g => Built f e k g ∧ ∃ s : Sharing, s.Right g ∧ k ∈ s.known := by
  refine .bind (.get (.bind ?_))
  refine (yields_shareWithin hf (Sharing.right_empty f) h (Nat.le_succ_of_le h.height_le)).mono ?_
  rintro ⟨root, s⟩ g hg
  exact .pure ⟨hg.built, s, hg.right, hg.mem⟩

theorem yields_share {id : NodeId} {e : Expr} (hf : f.Tidy) (h : f.Denotes id e) :
    Yields (share id) f (Built f e) :=
  (yields_share_right hf h).mono fun _ _ hk => hk.1

end Build

end TemporalCheck
