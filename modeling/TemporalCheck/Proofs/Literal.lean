import Mathlib.Data.List.Forall2
import TemporalCheck.Meaning.Word
import TemporalCheck.Proofs.Forest
import TemporalCheck.Proofs.NormalForm
import TemporalCheck.Proofs.Outcome

/-!
# TemporalCheck.Proofs.Literal

Literals by name.  The operations of a context number the variables of literals as they meet them,
so the number of a variable depends on when it is asked for.  A `Sign` is a literal with the name
of its variable instead: it does not depend on the context, and its number, once there is one,
stays (`Sign.literal?_mono`).
-/

namespace TemporalCheck

/-! ## Growing tables of variables -/

namespace Vars

/-- A table has all entries of another one, under the same numbers. -/
def Extends (v v' : Vars) : Prop := v.names <+: v'.names

theorem Extends.refl (v : Vars) : v.Extends v := List.prefix_rfl

theorem Extends.trans {v v' v'' : Vars} (h : v.Extends v') (h' : v'.Extends v'') : v.Extends v'' :=
  List.IsPrefix.trans h h'

theorem Extends.index? {v v' : Vars} (h : v.Extends v') {name : String} {i : Nat}
    (hi : v.index? name = some i) : v'.index? name = some i := by
  obtain ⟨more, hmore⟩ := h
  unfold Vars.index? List.idxOf? at *
  rw [← hmore, List.findIdx?_append, hi, Option.some_or]

theorem extends_intern (v : Vars) (name : String) : v.Extends (v.intern name).2 := by
  unfold intern
  split
  · exact .refl v
  · exact List.prefix_append v.names [name]

theorem intern_of_index? {v : Vars} {name : String} {i : Nat} (h : v.index? name = some i) :
    v.intern name = (i, v) := by
  simp [intern, h]

/-- A name that has been entered is found under the number that it has got. -/
theorem index?_intern (v : Vars) (name : String) :
    (v.intern name).2.index? name = some (v.intern name).1 := by
  unfold intern
  split
  · next i h => exact h
  · next h =>
    unfold Vars.index? List.idxOf? at *
    rw [List.findIdx?_append, h]
    simp

theorem name?_of_index? {v : Vars} {name : String} {i : Nat} (h : v.index? name = some i) :
    v.name? i = some name := by
  obtain ⟨hlt, heq, -⟩ := List.findIdx?_eq_some_iff_getElem.1 h
  rw [name?, List.getElem?_eq_getElem hlt, eq_of_beq heq]

theorem index?_lt {v : Vars} {name : String} {i : Nat} (h : v.index? name = some i) : i < v.size :=
  (List.getElem?_eq_some_iff.1 (name?_of_index? h)).1

/-- A number belongs to one name only. -/
theorem index?_inj {v : Vars} {name other : String} {i : Nat} (h : v.index? name = some i)
    (h' : v.index? other = some i) : name = other :=
  Option.some.inj ((name?_of_index? h).symm.trans (name?_of_index? h'))

/-- Whether a number is that of a name. -/
def Numbers (v : Vars) (i : Nat) : Prop := ∃ name, v.index? name = some i

theorem Extends.numbers {v v' : Vars} (h : v.Extends v') {i : Nat} (hi : v.Numbers i) :
    v'.Numbers i := by
  obtain ⟨name, hname⟩ := hi
  exact ⟨name, h.index? hname⟩

end Vars

/-! ## Signs -/

/-- A literal by name: whether it is asserted, and the variable it is about, if any. -/
structure Sign where
  positive : Bool
  name : Option String
deriving DecidableEq

namespace Sign

/-- The sign that says the opposite. -/
def flip (s : Sign) : Sign := { s with positive := !s.positive }

/-- The sign that nothing meets. -/
def bottom : Sign := ⟨false, none⟩

/-- The literal that a sign is, if its variable has a number. -/
def literal? (v : Vars) : Sign → Option Literal
  | ⟨true, none⟩ => some .top
  | ⟨false, none⟩ => some .bottom
  | ⟨true, some name⟩ => (v.index? name).map .holds
  | ⟨false, some name⟩ => (v.index? name).map .fails

/-- Whether a sign is met where `letter` tells what holds. -/
def Holds (letter : String → Prop) : Sign → Prop
  | ⟨true, none⟩ => True
  | ⟨false, none⟩ => False
  | ⟨true, some name⟩ => letter name
  | ⟨false, some name⟩ => ¬ letter name

variable {v v' : Vars} {s t : Sign} {l : Literal}

@[simp] theorem flip_flip (s : Sign) : s.flip.flip = s := by
  simp [flip]

theorem literal?_flip (v : Vars) (s : Sign) :
    s.flip.literal? v = (s.literal? v).map Literal.negate := by
  obtain ⟨positive, name⟩ := s
  cases positive <;> cases name <;> simp [flip, literal?, Literal.negate, Function.comp_def]

/-- The number of a literal stays the same in a larger table. -/
theorem literal?_mono (h : v.Extends v') (hs : s.literal? v = some l) : s.literal? v' = some l := by
  obtain ⟨positive, name⟩ := s
  cases name with
  | none => cases positive <;> exact hs
  | some name =>
    cases positive
    all_goals
      simp only [literal?, Option.map_eq_some_iff] at hs ⊢
      obtain ⟨i, hi, hl⟩ := hs
      exact ⟨i, h.index? hi, hl⟩

/-- The variable of a literal is one of the table. -/
theorem var?_lt {i : Nat} (hs : s.literal? v = some l) (hi : l.var? = some i) : i < v.size := by
  obtain ⟨positive, name⟩ := s
  cases name with
  | none => cases positive <;> cases hs <;> cases hi
  | some name =>
    cases positive
    all_goals
      obtain ⟨j, hj, rfl⟩ := Option.map_eq_some_iff.1 hs
      cases hi
      exact Vars.index?_lt hj

/-- A literal is the number of one sign only. -/
theorem literal?_inj (hs : s.literal? v = some l) (ht : t.literal? v = some l) : s = t := by
  obtain ⟨p, n⟩ := s
  obtain ⟨q, m⟩ := t
  cases p <;> cases q <;> cases n <;> cases m <;>
    simp only [literal?, Option.map_eq_some_iff, Option.some.injEq] at hs ht <;>
    grind [Vars.index?_inj]

theorem holds_flip {letter : String → Prop} (s : Sign) :
    s.flip.Holds letter ↔ ¬ s.Holds letter := by
  obtain ⟨positive, name⟩ := s
  cases positive <;> cases name <;> simp [flip, Holds]

end Sign

/-! ## The literals of a forest -/

/-- The sign of an atom. -/
def Node.sign? : Node → Option Sign
  | .top => some ⟨true, none⟩
  | .bottom => some ⟨false, none⟩
  | .prop name => some ⟨true, some name⟩
  | _ => none

namespace Forest

/-- The sign of a node: an atom or a negated atom. -/
def sign? (f : Forest) (id : NodeId) : Option Sign :=
  match f.node? id with
  | some (.unary .not arg) => ((f.node? arg).bind Node.sign?).map Sign.flip
  | some other => other.sign?
  | none => none

variable {f : Forest} {id : NodeId} {e : Expr}

theorem sign?_not {arg : NodeId} (h : f.node? id = some (.unary .not arg)) :
    f.sign? id = ((f.node? arg).bind Node.sign?).map Sign.flip := by
  simp only [sign?, h]

/-- A node that is no negation has the sign of an atom, if any. -/
theorem sign?_of_ne_not {node : Node} (h : f.node? id = some node)
    (hne : ∀ arg, node ≠ .unary .not arg) : f.sign? id = node.sign? := by
  unfold sign?
  rw [h]
  split
  · next arg heq => exact absurd (Option.some.inj heq) (hne arg)
  · next other _ heq => rw [Option.some.inj heq]
  · next heq => cases heq

/-- An atom holds where its sign is met. -/
theorem Denotes.sign?_node {node : Node} {s : Sign} (h : f.Denotes id e)
    (hnode : f.node? id = some node) (hs : node.sign? = some s) (w : Word String) (i : Nat) :
    e.HoldsAt w i ↔ s.Holds (w i) := by
  cases h with
  | top h' | bottom h' | prop h' | unary h' | binary h' =>
    rw [h'] at hnode
    cases hnode
    cases hs <;> exact Iff.rfl

/-- A literal holds where its sign is met. -/
theorem Denotes.holdsAt_iff_of_sign? {s : Sign} (h : f.Denotes id e) (hs : f.sign? id = some s)
    (w : Word String) (i : Nat) : e.HoldsAt w i ↔ s.Holds (w i) := by
  unfold sign? at hs
  split at hs
  · next arg hnode =>
    obtain ⟨t, ht, rfl⟩ := Option.map_eq_some_iff.1 hs
    obtain ⟨node, harg, ht⟩ := Option.bind_eq_some_iff.1 ht
    cases h with
    | top h' | bottom h' | prop h' | binary h' => simp [h'] at hnode
    | unary h' hd =>
      rw [h'] at hnode
      cases hnode
      rw [Sign.holds_flip]
      exact not_congr (hd.sign?_node harg ht w i)
  · next node hnode => exact h.sign?_node hnode hs w i
  · cases hs

/-- What a formula in negation normal form is if it is no literal. -/
theorem Denotes.cases_of_sign?_eq_none (h : f.Denotes id e) (hnnf : e.IsNegationNormal)
    (hs : f.sign? id = none) :
    (∃ a, f.node? id = some (.unary .next a)) ∨
    ∃ op a b, f.node? id = some (.binary op a b) ∧
      (op = .and ∨ op = .or ∨ op = .until ∨ op = .release) := by
  cases h with
  | top h' | bottom h' | prop h' => simp [sign?, h', Node.sign?] at hs
  | @unary _ arg op a h' hd =>
    cases op with
    | not =>
      have hnone : ∀ node, f.node? arg = some node → node.sign? = none := by
        simpa [sign?, h'] using hs
      cases hd with
      | top h'' | bottom h'' | prop h'' => cases hnone _ h''
      | unary | binary => exact hnnf.elim
    | next => exact .inl ⟨_, h'⟩
    | _ => exact hnnf.elim
  | @binary _ _ _ op _ _ h' =>
    cases op with
    | and | or | «until» | release => exact .inr ⟨_, _, _, h', by simp⟩
    | _ => exact hnnf.elim

end Forest

/-! ## Numbering in a context -/

namespace Context

/-- The literal of a node is the number of its sign. -/
theorem literal?_eq (c : Context) (id : NodeId) :
    c.literal? id = (c.forest.sign? id).bind (Sign.literal? c.vars) := by
  have hatom : ∀ node, c.atom? node = node.sign?.bind (Sign.literal? c.vars) := by
    intro node
    cases node <;> rfl
  unfold literal?
  split
  · next arg hnot =>
    rw [Forest.sign?_not hnot]
    cases c.forest.node? arg with
    | none => rfl
    | some node =>
      rw [Option.bind_some, Option.bind_some, hatom]
      cases node.sign? with
      | none => rfl
      | some s => exact (Sign.literal?_flip c.vars s).symm
  · next node hne hnode =>
    rw [Forest.sign?_of_ne_not hnode fun arg h => hne arg h]
    exact hatom node
  · next hnone =>
    unfold Forest.sign?
    rw [hnone]
    rfl

/-- Of a context only the table of variables has changed, and it has all its entries. -/
structure Grows (c c' : Context) : Prop where
  eq_with : c' = { c with vars := c'.vars }
  vars : c.vars.Extends c'.vars

variable {c c' c'' : Context}

theorem Grows.refl (c : Context) : c.Grows c := ⟨rfl, .refl c.vars⟩

theorem Grows.trans (h : c.Grows c') (h' : c'.Grows c'') : c.Grows c'' where
  eq_with := by rw [h'.eq_with, h.eq_with]
  vars := h.vars.trans h'.vars

theorem Grows.forest_eq (h : c.Grows c') : c'.forest = c.forest := by
  rw [h.eq_with]

end Context

namespace Yields

variable {α β : Type} {c : Context} {l : List α}

/-- Work on each element of a list, with a fact about each result that further numbering keeps. -/
theorem mapM {g : α → Work β} {R : α → β → Context → Prop}
    (stable : ∀ a b c c', R a b c → c.Grows c' → R a b c')
    (step : ∀ a ∈ l, ∀ c', c.Grows c' → Yields (g a) c' fun b c'' => c'.Grows c'' ∧ R a b c'') :
    Yields (l.mapM g) c fun bs c' => c.Grows c' ∧ List.Forall₂ (fun a b => R a b c') l bs := by
  induction l generalizing c with
  | nil => exact .pure ⟨.refl c, .nil⟩
  | cons a l ih =>
    rw [List.mapM_cons]
    refine .bind ((step a (by simp) c (.refl c)).mono fun b c' hb => ?_)
    have hrest := ih fun x hx c'' hc => step x (by simp [hx]) c'' (hb.1.trans hc)
    refine .bind (hrest.mono fun bs c'' hbs => .pure ⟨hb.1.trans hbs.1, ?_⟩)
    exact .cons (stable a b c' c'' hb.2 hbs.1) hbs.2

/-- The same for work whose results may be dropped. -/
theorem filterMapM {g : α → Work (Option β)} {R : α → Option β → Context → Prop}
    (stable : ∀ a b c c', R a b c → c.Grows c' → R a b c')
    (step : ∀ a ∈ l, ∀ c', c.Grows c' → Yields (g a) c' fun b c'' => c'.Grows c'' ∧ R a b c'') :
    Yields (l.filterMapM g) c fun bs c' => c.Grows c' ∧
      (∀ a ∈ l, ∃ o, R a o c' ∧ ∀ b, o = some b → b ∈ bs) ∧ ∀ b ∈ bs, ∃ a ∈ l, R a (some b) c' := by
  induction l generalizing c with
  | nil => exact .pure ⟨.refl c, by simp, by simp⟩
  | cons a l ih =>
    rw [List.filterMapM_cons]
    refine .bind ((step a (by simp) c (.refl c)).mono fun o c' ho => ?_)
    have hrest := ih fun x hx c'' hc => step x (by simp [hx]) c'' (ho.1.trans hc)
    cases o with
    | none =>
      refine hrest.mono fun bs c'' hbs => ?_
      obtain ⟨hgrows, hgiven, hfrom⟩ := hbs
      have ha := stable a none c' c'' ho.2 hgrows
      refine ⟨ho.1.trans hgrows, ?_, fun b hb => ?_⟩
      · rw [List.forall_mem_cons]
        exact ⟨⟨none, ha, by simp⟩, hgiven⟩
      · obtain ⟨x, hx, hR⟩ := hfrom b hb
        exact ⟨x, List.mem_cons_of_mem a hx, hR⟩
    | some b =>
      refine .bind (hrest.mono fun bs c'' hbs => .pure ?_)
      obtain ⟨hgrows, hgiven, hfrom⟩ := hbs
      have ha := stable a (some b) c' c'' ho.2 hgrows
      refine ⟨ho.1.trans hgrows, ?_, ?_⟩
      · rw [List.forall_mem_cons]
        refine ⟨⟨some b, ha, by simp⟩, fun x hx => ?_⟩
        obtain ⟨o, ho, hmem⟩ := hgiven x hx
        exact ⟨o, ho, fun y hy => List.mem_cons_of_mem b (hmem y hy)⟩
      · rw [List.forall_mem_cons]
        refine ⟨⟨a, by simp, ha⟩, fun y hy => ?_⟩
        obtain ⟨x, hx, hR⟩ := hfrom y hy
        exact ⟨x, List.mem_cons_of_mem a hx, hR⟩

end Yields

namespace Work

variable {c : Context} {id : NodeId}

theorem yields_node {node : Node} (h : c.forest.node? id = some node) :
    Yields (Work.node id) c fun n c' => n = node ∧ c' = c :=
  .bind (.get (.lift_work (Forest.get_of_node? h) ⟨rfl, rfl⟩))

theorem var_eq (name : String) (c : Context) : Work.var name c =
    .ok ((c.vars.intern name).1, { c with vars := (c.vars.intern name).2 }) := rfl

theorem yields_var (name : String) (c : Context) :
    Yields (Work.var name) c fun i c' => c.Grows c' ∧ c'.vars.index? name = some i :=
  ⟨_, _, var_eq name c, ⟨rfl, c.vars.extends_intern name⟩, c.vars.index?_intern name⟩

/-- A literal is the one of a sign in a context, and there is none only where there is no sign. -/
structure Numbered (s : Option Sign) (l : Option Literal) (c : Context) : Prop where
  literal_eq : l = s.bind (Sign.literal? c.vars)
  eq_none : l = none → s = none

/-- More variables do not change the number of a literal. -/
theorem Numbered.grows {s : Option Sign} {l : Option Literal} {c' : Context} (h : Numbered s l c)
    (hc : c.Grows c') : Numbered s l c' := by
  refine ⟨?_, h.eq_none⟩
  cases l with
  | none => rw [h.eq_none rfl, Option.bind_none]
  | some l =>
    obtain ⟨s, rfl, hl⟩ := Option.bind_eq_some_iff.1 h.literal_eq.symm
    exact (Sign.literal?_mono hc.vars hl).symm

/-- What asking for the literal of a sign ends in: the literal, in a context that has its variable.
A context that had the variable before is not changed. -/
structure Learned (s : Option Sign) (c : Context) (l : Option Literal) (c' : Context) : Prop where
  grows : c.Grows c'
  numbered : Numbered s l c'
  eq_of_known : (∀ t, s = some t → ∃ l, t.literal? c.vars = some l) → c' = c

/-- Asking for the literal of an atom numbers its variable. -/
theorem yields_atom? (node : Node) (c : Context) :
    Yields (Work.atom? node) c (Learned node.sign? c) := by
  cases node with
  | top | bottom => exact .pure ⟨.refl c, ⟨rfl, by simp⟩, fun _ => rfl⟩
  | unary | binary => exact .pure ⟨.refl c, ⟨rfl, fun _ => rfl⟩, fun _ => rfl⟩
  | prop name =>
    refine .bind ⟨_, _, var_eq name c, .pure ⟨⟨rfl, c.vars.extends_intern name⟩, ⟨?_, by simp⟩,
      fun hknown => ?_⟩⟩
    · simp [Node.sign?, Sign.literal?, Vars.index?_intern]
    · obtain ⟨l, hl⟩ := hknown _ rfl
      obtain ⟨i, hi, -⟩ := Option.map_eq_some_iff.1 hl
      rw [Vars.intern_of_index? hi]

/-- The literal of a negated atom is the opposite one. -/
theorem Learned.negate {s : Option Sign} {l : Option Literal} {c' : Context}
    (h : Learned s c l c') : Learned (s.map Sign.flip) c (l.map Literal.negate) c' := by
  refine ⟨h.grows, ⟨?_, fun hnone => ?_⟩, fun hknown => h.eq_of_known fun t ht => ?_⟩
  · rw [h.numbered.literal_eq]
    cases s with
    | none => rfl
    | some s => exact (Sign.literal?_flip c'.vars s).symm
  · rw [h.numbered.eq_none (Option.map_eq_none_iff.1 hnone), Option.map_none]
  · obtain ⟨l, hl⟩ := hknown t.flip (by rw [ht, Option.map_some])
    rw [Sign.literal?_flip] at hl
    obtain ⟨l', hl', -⟩ := Option.map_eq_some_iff.1 hl
    exact ⟨l', hl'⟩

/-- Asking for the literal of a stored formula numbers its variable. -/
theorem yields_literal? {e : Expr} (h : c.forest.Denotes id e) :
    Yields (Work.literal? id) c (Learned (c.forest.sign? id) c) := by
  obtain ⟨node, hnode⟩ := h.exists_node
  refine .bind ((yields_node hnode).mono fun n t ht => ?_)
  obtain ⟨rfl, rfl⟩ := ht
  split
  · next arg =>
    rw [Forest.sign?_not hnode]
    cases h with
    | top h' | bottom h' | prop h' | binary h' => simp [h'] at hnode
    | unary h' hd =>
      rw [h'] at hnode
      cases hnode
      obtain ⟨m, hm⟩ := hd.exists_node
      rw [hm, Option.bind_some]
      refine .bind ((yields_node hm).mono fun n t ht => ?_)
      obtain ⟨rfl, rfl⟩ := ht
      exact .bind ((yields_atom? n t).mono fun l c' hl => .pure hl.negate)
  · next hne =>
    rw [Forest.sign?_of_ne_not hnode fun arg h => hne arg h]
    exact yields_atom? n t

/-- Asking for a literal whose variable has a number changes nothing. -/
theorem literal?_of_known {e : Expr} (hid : c.forest.Denotes id e)
    (h : ∀ s, c.forest.sign? id = some s → ∃ l, s.literal? c.vars = some l) :
    Work.literal? id c = .ok (c.literal? id, c) := by
  obtain ⟨l, c', hok, hl⟩ := yields_literal? hid
  obtain rfl := hl.eq_of_known h
  rw [hok, Context.literal?_eq, ← hl.numbered.literal_eq]

end Work

end TemporalCheck
