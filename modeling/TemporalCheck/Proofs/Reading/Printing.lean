import TemporalCheck.Proofs.Handle
import TemporalCheck.Proofs.Reading.Lexing

/-!
# TemporalCheck.Proofs.Reading.Printing

What is printed can be read again.  `Prints text layer e` says that a text is cut into tokens that
are the formula `e` of a layer of the grammar, whatever follows it, as long as that does not go on
with a word.  The printer's priorities are the layers of the grammar under other names
(`Layer.ofPlace`): where an operator stands without parentheses, its own layer allows it.
-/

namespace TemporalCheck

open Text

variable {ts us : List Token} {e a b : Expr} {la lb lc : Layer} {text left right : String}

/-! ## Layers and priorities -/

/-- The layer of formulas that may stand where operators of priority `place` may. -/
def Layer.ofPlace (place : Nat) : Layer :=
  if place < 10 then .implication
  else if place < 20 then .junction
  else if place < 30 then .temporal
  else .operand

/-- The layer that the outermost operator of a formula belongs to. -/
def Expr.layer : Expr → Layer
  | .binary .implies _ _ => .implication
  | .binary .and _ _ | .binary .or _ _ => .junction
  | .binary .until _ _ | .binary .release _ _ | .binary .weakUntil _ _ => .temporal
  | _ => .operand

theorem Derives.junction_of_temporal (h : Derives .temporal ts e) : Derives .junction ts e := by
  simpa using Derives.junction h .junction_end

theorem Derives.junction_pair {t : Token} {op : BinaryOp} (ht : t.kind.junctionOp? = some op)
    (ha : Derives .temporal ts a) (hb : Derives .temporal us b) :
    Derives .junction (ts ++ t :: us) (.binary op a b) := by
  simpa using Derives.junction ha (.junction_step ht hb .junction_end)

/-- An operand is a formula of every layer. -/
theorem Derives.of_operand (h : Derives .operand ts e) (place : Nat) :
    Derives (.ofPlace place) ts e := by
  unfold Layer.ofPlace
  split
  · exact .junction_only (.junction_of_temporal (.operand_only h))
  · split
    · exact .junction_of_temporal (.operand_only h)
    · split
      · exact .operand_only h
      · exact h

/-- A formula that needs no parentheses at a place belongs to the layer of the place. -/
theorem Derives.of_not_needsParens {place : Nat} (hplace : e.needsParens place = false)
    (h : Derives e.layer ts e) : Derives (.ofPlace place) ts e := by
  cases e with
  | binary op a b =>
    simp only [Expr.needsParens, Expr.isBinary, Bool.and_true, Bool.or_eq_false_iff,
      decide_eq_false_iff_not] at hplace
    cases op with
    | implies =>
      simp only [Expr.priority] at hplace
      have hlt : place < 10 := by omega
      simp only [Layer.ofPlace, hlt, if_true]
      exact h
    | and | or =>
      simp only [Expr.priority] at hplace
      have hlt : place < 20 := by omega
      simp only [Layer.ofPlace, hlt, if_true]
      split
      · exact .junction_only h
      · exact h
    | «until» | release | weakUntil =>
      simp only [Expr.priority] at hplace
      have hlt : place < 30 := by omega
      simp only [Layer.ofPlace, hlt, if_true]
      split
      · exact .junction_only (.junction_of_temporal h)
      · split
        · exact .junction_of_temporal h
        · exact h
    | allUntil | existsUntil => exact h.of_operand place
  | _ => exact h.of_operand place

/-! ## Printed texts -/

/-- A text is cut into tokens that are a formula of a layer, if what follows does not go on with a
word. -/
def Prints (text : String) (layer : Layer) (e : Expr) : Prop :=
  ∃ ts, Derives layer ts e ∧
    ∀ cs us, Breaks cs → Lexes cs us → Lexes (text.toList ++ cs) (ts ++ us)

theorem prints_top : Prints "T" .operand .top := by
  refine ⟨[⟨.top, "T", {}⟩], .atom rfl, fun cs us hcs h => ?_⟩
  exact Lexes.word (c := 'T') (by decide) (by simp) hcs h

theorem prints_bottom : Prints "B" .operand .bottom := by
  refine ⟨[⟨.bottom, "B", {}⟩], .atom rfl, fun cs us hcs h => ?_⟩
  exact Lexes.word (c := 'B') (by decide) (by simp) hcs h

theorem prints_prop {name : String} (hname : IsName name) : Prints name .operand (.prop name) :=
  ⟨[⟨.proposition, name, {}⟩], .atom rfl, fun _ _ hcs h => Lexes.name hname hcs h⟩

/-- Parentheses around a formula make an operand of it. -/
theorem Prints.parens (h : Prints text .implication e) :
    Prints ("(" ++ text ++ ")") .operand e := by
  obtain ⟨ts, hd, hlex⟩ := h
  refine ⟨⟨.parenOpen, "(", {}⟩ :: (ts ++ [⟨.parenClose, ")", {}⟩]), .parens rfl hd rfl,
    fun cs us _ h => ?_⟩
  have hclose : Lexes (')' :: cs) (⟨.parenClose, ")", {}⟩ :: us) :=
    .token (l := ⟨.parenClose, [], cs⟩) rfl rfl h
  have htext := hlex _ _ (breaks_cons (by decide) (by decide)) hclose
  have hopen : Lexes ('(' :: (text.toList ++ ')' :: cs)) _ :=
    .token (l := ⟨.parenOpen, [], _⟩) rfl rfl htext
  simpa using hopen

/-- The token that an operator with one operand is written with. -/
def UnaryOp.token : UnaryOp → Token
  | .not => ⟨.negation, "!", {}⟩
  | .next => ⟨.next, "X", {}⟩
  | .future => ⟨.future, "F", {}⟩
  | .global => ⟨.global, "G", {}⟩
  | .allGlobally => ⟨.allGlobally, "AG", {}⟩
  | .existsGlobally => ⟨.existsGlobally, "EG", {}⟩
  | .allFinally => ⟨.allFinally, "AF", {}⟩
  | .existsFinally => ⟨.existsFinally, "EF", {}⟩
  | .allNext => ⟨.allNext, "AX", {}⟩
  | .existsNext => ⟨.existsNext, "EX", {}⟩

theorem UnaryOp.unaryOp?_token (op : UnaryOp) : op.token.kind.unaryOp? = some op := by
  cases op <;> rfl

/-- The symbol of an operator in front is read as its token. -/
theorem UnaryOp.lexes_symbol (op : UnaryOp) {cs : List Char} (h : Lexes cs us) :
    Lexes (op.symbol.toList ++ cs) (op.token :: us) := by
  cases op with
  | not => exact .token (l := ⟨.negation, [], cs⟩) rfl rfl h
  | next => exact .token (l := ⟨.next, [], ' ' :: cs⟩) rfl rfl (.blank rfl h)
  | future => exact .token (l := ⟨.future, [], ' ' :: cs⟩) rfl rfl (.blank rfl h)
  | global => exact .token (l := ⟨.global, [], ' ' :: cs⟩) rfl rfl (.blank rfl h)
  | allGlobally => exact .token (l := ⟨.allGlobally, ['G'], ' ' :: cs⟩) rfl rfl (.blank rfl h)
  | existsGlobally => exact .token (l := ⟨.existsGlobally, ['G'], ' ' :: cs⟩) rfl rfl (.blank rfl h)
  | allFinally => exact .token (l := ⟨.allFinally, ['F'], ' ' :: cs⟩) rfl rfl (.blank rfl h)
  | existsFinally => exact .token (l := ⟨.existsFinally, ['F'], ' ' :: cs⟩) rfl rfl (.blank rfl h)
  | allNext => exact .token (l := ⟨.allNext, ['X'], ' ' :: cs⟩) rfl rfl (.blank rfl h)
  | existsNext => exact .token (l := ⟨.existsNext, ['X'], ' ' :: cs⟩) rfl rfl (.blank rfl h)

theorem Prints.unary (op : UnaryOp) (h : Prints text .operand a) :
    Prints (op.symbol ++ text) .operand (.unary op a) := by
  obtain ⟨ts, hd, hlex⟩ := h
  refine ⟨op.token :: ts, .unary op.unaryOp?_token hd, fun cs us hcs h => ?_⟩
  simpa using op.lexes_symbol (hlex cs us hcs h)

/-- The token that stands between the operands of an operator. -/
def BinaryOp.token : BinaryOp → Token
  | .implies => ⟨.implies, "->", {}⟩
  | .and => ⟨.and, "&", {}⟩
  | .or => ⟨.or, "|", {}⟩
  | .until | .allUntil | .existsUntil => ⟨.until, "U", {}⟩
  | .release => ⟨.release, "R", {}⟩
  | .weakUntil => ⟨.weakUntil, "W", {}⟩

/-- The symbol of an operator between, with blanks around it, is read as its token. -/
theorem BinaryOp.lexes_symbol (op : BinaryOp) {cs : List Char} (h : Lexes cs us) :
    Lexes (' ' :: (op.symbol.toList ++ ' ' :: cs)) (op.token :: us) := by
  refine .blank rfl ?_
  cases op with
  | implies => exact .token (l := ⟨.implies, ['>'], ' ' :: cs⟩) rfl rfl (.blank rfl h)
  | and => exact .token (l := ⟨.and, [], ' ' :: cs⟩) rfl rfl (.blank rfl h)
  | or => exact .token (l := ⟨.or, [], ' ' :: cs⟩) rfl rfl (.blank rfl h)
  | «until» | allUntil | existsUntil =>
    exact .token (l := ⟨.until, [], ' ' :: cs⟩) rfl rfl (.blank rfl h)
  | release => exact .token (l := ⟨.release, [], ' ' :: cs⟩) rfl rfl (.blank rfl h)
  | weakUntil => exact .token (l := ⟨.weakUntil, [], ' ' :: cs⟩) rfl rfl (.blank rfl h)

/-- Two operands and the operator between them, of a layer that goes with the operands' layers. -/
theorem Prints.binary (op : BinaryOp) (ha : Prints left la a) (hb : Prints right lb b)
    (hd : ∀ ts us, Derives la ts a → Derives lb us b →
      Derives lc (ts ++ op.token :: us) (.binary op a b)) :
    Prints (left ++ " " ++ op.symbol ++ " " ++ right) lc (.binary op a b) := by
  obtain ⟨ts, hda, hleft⟩ := ha
  obtain ⟨us, hdb, hright⟩ := hb
  refine ⟨ts ++ op.token :: us, hd ts us hda hdb, fun cs vs hcs h => ?_⟩
  have hsymbol := op.lexes_symbol (hright cs vs hcs h)
  simpa using hleft _ _ (breaks_cons (by decide) (by decide)) hsymbol

/-- An until with a path quantifier. -/
theorem Prints.quantified {c : Char} {k : Kind} {op : BinaryOp} (hop : k.quantifiedOp? = some op)
    (hlex : ∀ cs us, Lexes cs us → Lexes (c :: '[' :: cs) (⟨k, String.ofList [c, '['], {}⟩ :: us))
    (ha : Prints left .operand a) (hb : Prints right .operand b) :
    Prints (String.ofList [c, '['] ++ left ++ " U " ++ right ++ "]") .operand (.binary op a b) := by
  obtain ⟨ts, hda, hleft⟩ := ha
  obtain ⟨us, hdb, hright⟩ := hb
  refine ⟨⟨k, String.ofList [c, '['], {}⟩ ::
    (ts ++ BinaryOp.until.token :: (us ++ [⟨.untilEnd, "]", {}⟩])),
    .quantified hop hda rfl (.operand_only hdb) rfl, fun cs vs _ h => ?_⟩
  have hend : Lexes (']' :: cs) (⟨.untilEnd, "]", {}⟩ :: vs) :=
    .token (l := ⟨.untilEnd, [], cs⟩) rfl rfl h
  have hsecond := hright _ _ (breaks_cons (by decide) (by decide)) hend
  have hfirst := hleft _ _ (breaks_cons (by decide) (by decide))
    (BinaryOp.until.lexes_symbol hsecond)
  simpa [BinaryOp.symbol] using hlex _ _ hfirst

theorem Expr.needsParens_zero (e : Expr) : e.needsParens 0 = false := by
  cases e with
  | binary op a b => cases op <;> rfl
  | _ => rfl

/-- Parentheses where the printer puts them. -/
theorem Prints.wrapped {allParens : Bool} {place : Nat} (h : Prints text e.layer e) :
    Prints (if allParens || e.needsParens place then "(" ++ text ++ ")" else text)
      (.ofPlace place) e := by
  obtain ⟨ts, hd, hlex⟩ := h
  split
  · have hprints : Prints text .implication e :=
      ⟨ts, hd.of_not_needsParens e.needsParens_zero, hlex⟩
    obtain ⟨us, hd, hlex⟩ := hprints.parens
    exact ⟨us, hd.of_operand place, hlex⟩
  · next hparens =>
    simp only [Bool.or_eq_true, not_or, Bool.not_eq_true] at hparens
    exact ⟨ts, hd.of_not_needsParens hparens.2, hlex⟩

/-- A formula whose propositions have names is printed so that it can be read. -/
theorem prints_renderAt (hnames : ∀ name, .prop name ∈ e.subformulas → IsName name)
    (allParens : Bool) (place : Nat) : Prints (e.renderAt allParens place) (.ofPlace place) e := by
  induction e generalizing place with
  | top => exact prints_top.wrapped
  | bottom => exact prints_bottom.wrapped
  | prop name => exact (prints_prop (hnames name (by simp [Expr.subformulas]))).wrapped
  | unary op a ih =>
    have ha := ih (fun name h => hnames name (List.mem_cons_of_mem _ h)) 50
    exact (Prints.unary op ha).wrapped
  | binary op a b iha ihb =>
    have ha := iha fun name h => hnames name (by simp [Expr.subformulas, h])
    have hb := ihb fun name h => hnames name (by simp [Expr.subformulas, h])
    cases op with
    | implies =>
      refine Prints.wrapped ((ha 10).binary .implies (hb 10) fun ts us hda hdb => ?_)
      exact .implies hda rfl (.junction_only hdb)
    | and =>
      refine Prints.wrapped ((ha 20).binary .and (hb 20) fun ts us hda hdb => ?_)
      exact .junction_pair rfl hda hdb
    | or =>
      refine Prints.wrapped ((ha 20).binary .or (hb 20) fun ts us hda hdb => ?_)
      exact .junction_pair rfl hda hdb
    | «until» =>
      refine Prints.wrapped ((ha 30).binary .until (hb 30) fun ts us hda hdb => ?_)
      exact .temporal hda rfl (.operand_only hdb)
    | release =>
      refine Prints.wrapped ((ha 30).binary .release (hb 30) fun ts us hda hdb => ?_)
      exact .temporal hda rfl (.operand_only hdb)
    | weakUntil =>
      refine Prints.wrapped ((ha 30).binary .weakUntil (hb 30) fun ts us hda hdb => ?_)
      exact .temporal hda rfl (.operand_only hdb)
    | allUntil =>
      refine Prints.wrapped (.quantified (c := 'A') (k := .allUntil) rfl (fun cs us h => ?_) (ha 30)
        (hb 30))
      exact .token (l := ⟨.allUntil, ['['], cs⟩) rfl rfl h
    | existsUntil =>
      refine Prints.wrapped (.quantified (c := 'E') (k := .existsUntil) rfl (fun cs us h => ?_)
        (ha 30) (hb 30))
      exact .token (l := ⟨.existsUntil, ['['], cs⟩) rfl rfl h

end TemporalCheck
