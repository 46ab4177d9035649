import Stencil.Proofs.Printing.Reread

-- The source of an expression is read as `Expr.reread` tells.
namespace Stencil

-- The text of a number is read as the number again.
def Number.ReadsBack (x : Float) : Prop :=
  (Decimal.read? (Number.text x).toList).map Decimal.toFloat = some x

-- A name that is not taken for a literal.
def isVariable (x : String) : Bool :=
  isName x.toList && x ∉ ["true", "false", "null", "undefined"]

theorem Expr.ofName_of_isVariable {x : String} (h : isVariable x = true) : ofName x = .name x := by
  unfold ofName
  split
  case h_5 => rfl
  all_goals exact absurd h (by decide)

-- What an expression needs for its source to have the tokens that are meant.
def Expr.Legible : Expr → Prop
  | literal (.number x) => Number.ReadsBack x
  | member _ p => isName p.toList = true
  | _ => True

namespace Token

open Grammar
open Stencil.Expr (Prefixed)

variable {p : Char → Bool} {s : Scope}

section

variable {bs : List Char}

theorem lexes_comma : Lexes ", ".toList (some [.punct .comma]) bs :=
  (lexes_punct rfl nofun : Lexes Punct.comma.text.toList _ _).append .blank

theorem lexes_colon : Lexes ": ".toList (some [.punct .colon]) bs :=
  (lexes_punct rfl nofun : Lexes Punct.colon.text.toList _ _).append .blank

theorem lexes_question : Lexes " ? ".toList (some [.punct .question]) bs :=
  Lexes.blank.append ((lexes_punct rfl nofun : Lexes Punct.question.text.toList _ _).append .blank)

theorem lexes_alternate : Lexes " : ".toList (some [.punct .colon]) bs :=
  Lexes.blank.append lexes_colon

theorem lexes_operator (op : BinaryOp) :
    Lexes (" " ++ op.text ++ " ").toList (some [.punct op.punct]) bs := by
  have ht : op.text = op.punct.text := by cases op <;> rfl
  have hr : Punct.read? (op.punct.text.toList ++ (" ".toList ++ bs)) = some op.punct := by
    cases op <;> rfl
  rw [ht, String.toList_append, String.toList_append, List.append_assoc]
  exact Lexes.blank.append ((lexes_punct hr (by cases op <;> nofun)).append .blank)

theorem lexes_member {x : String} (hx : isName x.toList = true) (hb : Ends isNameChar bs) :
    Lexes ("." ++ x).toList (some [.punct .dot, .name x]) bs := by
  rw [String.toList_append]
  refine Lexes.append (lexes_punct rfl fun _ => ?_ : Lexes Punct.dot.text.toList _ _)
    (lexes_name hx hb)
  cases h : x.toList
  case nil => simp [h, isName] at hx
  case cons c cs =>
    rw [h] at hx
    exact isDigit_of_isNameStart (Bool.and_eq_true_iff.mp hx).1

theorem lexes_prefix (op : UnaryOp) (hb : Ends (· == '=') bs) :
    Lexes op.text.toList (some [.punct op.punct]) bs := by
  have ht : op.text = op.punct.text := by cases op <;> rfl
  have hr : Punct.read? (op.punct.text.toList ++ bs) = some op.punct := by
    cases op
    case neg | plus => rfl
    case not =>
      cases bs
      case nil => rfl
      case cons c bs =>
        have hc : c ≠ '=' := by simpa [Ends] using hb
        simp [Punct.read?, UnaryOp.punct, Punct.text, hc]
  rw [ht]
  exact lexes_punct hr (by cases op <;> simp [UnaryOp.punct])

end

theorem reads_name {x : String} {e : Expr} {whole : Bool} (hx : isName x.toList = true)
    (he : Expr.ofName x = e) : Reads Phrase (sticks whole) x.toList (some ⟨[], e⟩) :=
  ⟨_, .some (.of_primary (he ▸ .name)), fun _ hb => lexes_name hx hb.names⟩

theorem reads_literal (t : String) {whole : Bool} :
    Reads Primary (sticks whole) (Source.literal t).toList (some (.literal (.string t))) :=
  ⟨_, .some .string, fun _ _ => lexes_literal t⟩

theorem reads_variable {x : String} {whole : Bool} (hs : (s.slot? x).isSome → isVariable x = true) :
    Reads Phrase (sticks whole) (Source.name s x).toList (some ⟨[], Expr.ofVariable s x⟩) := by
  unfold Source.name Expr.ofVariable
  split
  case isTrue hx =>
    have hv : isVariable x = true := by
      rcases hx with hx | rfl | rfl
      case inl => exact hs hx
      all_goals decide
    exact reads_name (Bool.and_eq_true_iff.mp hv).1 (Expr.ofName_of_isVariable hv)
  case isFalse =>
    have hc : Reads Phrase (sticks whole) "$lookup".toList (some ⟨[], .name "$lookup"⟩) :=
      reads_name (by decide) rfl
    have ha : Reads (fun ks e => ∃ ks', ks = .punct .openParen :: (ks' ++ [.punct .closeParen]) ∧
        Items ks' [e]) (sticks whole) _ _ :=
      .enclosed .parens (f := id) (@reads_literal x true) fun ks e h =>
        ⟨ks, rfl, .last (Phrase.of_primary h).conditional⟩
    have h := hc.suffix (f := fun callee e => .call callee [e]) ha (fun _ _ => Ends.whole rfl)
      fun ks e _ _ hp ⟨ks', hk, hi⟩ => hk ▸ .call hp hi
    simpa [Punct.text, String.toList_append] using h

theorem reads_number {x : Float} (hx : Number.ReadsBack x) :
    Reads Phrase (sticks (Expr.wholeNumber?.isWhole x)) (Source.numberText x).toList
      (some ⟨[], .literal (.number x)⟩) := by
  have ⟨d, hd, hx⟩ := Option.map_eq_some_iff.mp hx
  have hl (bs : List Char) (hb : Ends (sticks ((Number.text x).toList.all isDigit)) bs) :
      Lexes (Number.text x).toList (some [.number x]) bs := by
    have h := lexes_number hd hb
    rwa [hx] at h
  unfold Expr.wholeNumber?.isWhole Source.numberText
  split
  case isFalse => exact ⟨_, .some (.of_primary .number), hl⟩
  case isTrue =>
    have h : Reads Primary (sticks true) (Number.text x).toList (some (.literal (.number x))) :=
      ⟨_, .some .number, fun bs hb => hl bs hb.whole⟩
    have h := h.enclosed (p := sticks (("(" ++ Number.text x ++ ")").toList.all isDigit)) .parens
      fun ks e h => Phrase.of_primary (.group (Phrase.of_primary h).conditional)
    simpa [Punct.text, Prefixed.expr, String.toList_append] using h

theorem reads_constant (l : Stencil.Literal) (hl : (Expr.literal l).Legible) :
    Reads Phrase (sticks (Expr.literal l).wholeNumber?.isSome) (Source.constant l).toList
      (some ⟨[], .literal l⟩) := by
  cases l
  case undefined | null => exact reads_name (by decide) rfl
  case bool b => cases b <;> exact reads_name (by decide) rfl
  case string t => exact (reads_literal t).map fun _ _ => .of_primary
  case number x =>
    have h := reads_number hl
    simp only [Expr.wholeNumber?]
    cases hw : Expr.wholeNumber?.isWhole x <;> simpa [hw, Source.constant] using h

-- A text does not start with an equals sign, which would become part of an operator before it.
def Opens (t : String) : Prop :=
  ∃ c cs, t.toList = c :: cs ∧ c ≠ '='

namespace Opens

variable {t u : String}

theorem append (h : Opens t) : Opens (t ++ u) := by
  have ⟨c, cs, ht, hc⟩ := h
  exact ⟨c, cs ++ u.toList, by rw [String.toList_append, ht, List.cons_append], hc⟩

theorem ends (h : Opens t) (bs : List Char) : Ends (· == '=') (t.toList ++ bs) := by
  have ⟨c, cs, ht, hc⟩ := h
  rw [ht]
  simpa [Ends] using hc

theorem name (h : isName t.toList = true) : Opens t := by
  cases ht : t.toList
  case nil => simp [ht, isName] at h
  case cons c cs =>
    refine ⟨c, cs, ht, ?_⟩
    rintro rfl
    simp [ht, isName, isNameStart, isLetter] at h

theorem number {x : Float} (h : Number.ReadsBack x) : Opens (Source.numberText x) := by
  unfold Source.numberText
  split
  case isTrue => exact .append (.append ⟨'(', [], rfl, by decide⟩)
  case isFalse =>
    have ⟨d, hd, _⟩ := Option.map_eq_some_iff.mp h
    cases ht : (Number.text x).toList
    case nil => simp [ht, Decimal.read?] at hd
    case cons c cs =>
      rw [ht] at hd
      have hs : startsNumber c (cs ++ []) = true := startsNumber_of_read? hd
      refine ⟨c, cs, ht, ?_⟩
      rintro rfl
      cases hs

theorem constant {l : Stencil.Literal} (h : (Expr.literal l).Legible) :
    Opens (Source.constant l) := by
  cases l
  case undefined | null => exact .name (by decide)
  case bool b => cases b <;> exact .name (by decide)
  case number x => exact .number h
  case string t => exact ⟨'"', _, String.toList_ofList, by decide⟩

theorem ofVariable {x : String} (hs : (s.slot? x).isSome → isVariable x = true) :
    Opens (Source.name s x) := by
  unfold Source.name
  split
  case isFalse => exact .append (.append ⟨'$', _, rfl, by decide⟩)
  case isTrue hx =>
    rcases hx with hx | rfl | rfl
    case inl => exact .name (Bool.and_eq_true_iff.mp (hs hx)).1
    all_goals exact .name (by decide)

end Opens

theorem opens_expression (hs : ∀ x, (s.slot? x).isSome → isVariable x = true) :
    (e : Expr) → (∀ n ∈ e.nodes, n.Legible) → Opens (Source.expression s e)
  | .literal l, h => .constant (h _ (.head _))
  | .name x, _ => .ofVariable (hs x)
  | .array _, _ => .append (.append ⟨'[', [], rfl, by decide⟩)
  | .object _, _ => .append (.append ⟨'{', [], rfl, by decide⟩)
  | .member o _, h => .append (opens_expression hs o fun n hn => h n (.tail _ hn))
  | .index o _, h => .append (.append (.append
    (opens_expression hs o fun n hn => h n (.tail _ (List.mem_append_left _ hn)))))
  | .call callee _, h => .append (.append (.append
    (opens_expression hs callee fun n hn => h n (.tail _ (List.mem_append_left _ hn)))))
  | .unary op operand, _ => by
    have ho : Opens op.text := by cases op <;> exact ⟨_, [], rfl, by decide⟩
    simp only [Source.expression]
    split
    case isTrue => exact .append (.append (.append ho))
    case isFalse => exact .append ho
  | .binary .., _ => .append (.append (.append (.append ⟨'(', [], rfl, by decide⟩)))
  | .cond .., _ =>
    .append (.append (.append (.append (.append (.append ⟨'(', [], rfl, by decide⟩)))))

theorem reads_key (k : String) {whole : Bool} :
    Reads (fun ks k => ∃ kind : Kind, ks = [kind] ∧ kind.key? = some k) (sticks whole)
      (Source.key k).toList (some k) := by
  unfold Source.key
  split
  case isTrue hk => exact ⟨_, .some ⟨_, rfl, rfl⟩, fun _ hb => lexes_name hk hb.names⟩
  case isFalse => exact ⟨_, .some ⟨_, rfl, rfl⟩, fun _ _ => lexes_literal k⟩

theorem reads_entry {cs : List Char} {a : Option Prefixed} {whole : Bool} (k : String)
    (h : Reads Phrase (sticks whole) cs a) :
    Reads Entry (sticks whole) ((Source.key k).toList ++ (": ".toList ++ cs))
      (a.map fun e => (k, e.expr)) :=
  (@reads_key k true).separated (R := Entry) h ": ".toList (fun _ => lexes_colon) (fun _ => rfl)
    (f := fun k e => (k, e.expr)) fun _ _ _ _ ⟨_, hs, hk⟩ he => hs ▸ .full hk he.conditional

theorem reads_prefixed {cs : List Char} {a : Option Prefixed} (op : UnaryOp)
    (h : Reads Phrase p cs a) (hc : ∀ bs, Ends (· == '=') (cs ++ bs)) :
    Reads Phrase p (op.text.toList ++ cs) (a.map fun e => ⟨op :: e.ops, e.core⟩) := by
  have ho : Reads (fun ks (_ : Unit) => ks = [.punct op.punct]) _ op.text.toList _ :=
    .token fun _ => lexes_prefix op
  refine ho.append (R := Phrase) (f := fun _ e => ⟨op :: e.ops, e.core⟩) h (fun bs _ => hc bs) ?_
  intro _ _ _ _ hk he
  subst hk
  exact he.prefixed

theorem eq_of_wholeNumber? {e : Expr} {ops : List UnaryOp} {x : Float}
    (h : e.wholeNumber? = some (ops, x)) :
    Expr.wholeNumber?.isWhole x = true ∧ (ops = [] ∧ e = .literal (.number x) ∨
      ∃ op, ops = [op] ∧ e = .unary op (.literal (.number x))) := by
  unfold Expr.wholeNumber? at h
  split at h
  case h_1 =>
    split at h <;> cases h
    case isTrue hw => exact ⟨hw, .inl ⟨rfl, rfl⟩⟩
  case h_2 =>
    split at h <;> cases h
    case isTrue hw => exact ⟨hw, .inr ⟨_, rfl, rfl⟩⟩
  case h_3 => cases h

-- The property of a whole number is read as a part of the number, or not at all.
theorem reads_whole_member {e : Expr} {ops : List UnaryOp} {x : Float} {name : String}
    (hw : e.wholeNumber? = some (ops, x)) (he : ∀ n ∈ e.nodes, n.Legible)
    (hn : isName name.toList = true) :
    Reads Phrase (sticks false) ((Source.expression s e).toList ++ '.' :: name.toList)
      ((Decimal.read? ((Source.numberText x).toList ++ '.' :: name.toList)).map fun d =>
        ⟨ops, .literal (.number d.toFloat)⟩) := by
  have ⟨hw, h⟩ := eq_of_wholeNumber? hw
  have hx : Number.ReadsBack x := by
    rcases h with ⟨_, rfl⟩ | ⟨_, _, rfl⟩
    case inl => exact he (.literal (.number x)) (.head _)
    case inr => exact he (.literal (.number x)) (.tail _ (.head _))
  have ho := Opens.number hx
  have ⟨c, cs, ht, _⟩ := ho
  have hr : Reads Phrase (sticks false) ((Source.numberText x).toList ++ '.' :: name.toList)
      ((Decimal.read? ((Source.numberText x).toList ++ '.' :: name.toList)).map fun d =>
        ⟨[], .literal (.number d.toFloat)⟩) := by
    refine ⟨_, ?_, fun bs hb => lexes_whole_member hw (by simp [ht]) hn hb⟩
    cases Decimal.read? _
    case none => exact .none
    case some => exact .some (.of_primary .number)
  rcases h with ⟨rfl, rfl⟩ | ⟨op, rfl, rfl⟩
  case inl => exact hr
  case inr =>
    have hp := reads_prefixed op hr fun bs => by
      rw [List.append_assoc]
      exact ho.ends _
    simpa [Source.expression, Source.constant, Expr.isUnary, String.toList_append,
      Function.comp_def] using hp

-- What stands between marks after an expression, such as arguments.
theorem reads_suffix {α : Type} {P : List Kind → α → Prop} {cs as : List Char} {o c : Punct}
    {whole whole' : Bool} {a : Option Prefixed} {b : Option α} {f : Expr → α → Expr}
    (ho : Encloses o c) (he : ∀ bs, Ends (sticks true) (o.text.toList ++ bs))
    (h : Reads Phrase (sticks whole) cs a) (h' : Reads P (sticks whole') as b)
    (hf : ∀ ks e ks' y, Postfix ks e → P ks' y →
      Postfix (ks ++ .punct o :: (ks' ++ [.punct c])) (f e y)) :
    Reads Phrase (sticks false) (cs ++ (o.text.toList ++ (as ++ c.text.toList)))
      (a.bind fun e => b.map fun y => ⟨e.ops, f e.core y⟩) := by
  have hm : Reads (fun ks y => ∃ ks', ks = .punct o :: (ks' ++ [.punct c]) ∧ P ks' y) (sticks false)
      (o.text.toList ++ (as ++ c.text.toList)) (b.map id) :=
    h'.enclosed ho fun ks _ hk => ⟨ks, rfl, hk⟩
  rw [Option.map_id] at hm
  refine h.suffix hm (fun bs _ => ?_) fun ks e _ y hp ⟨ks', hk, hy⟩ => hk ▸ hf ks e ks' y hp hy
  rw [List.append_assoc]
  exact (he _).whole

theorem wholeNumber?_unary {op : UnaryOp} {e : Expr} (h : e.isUnary = false) :
    (Expr.unary op e).wholeNumber?.isSome = e.wholeNumber?.isSome := by
  cases e
  case literal l =>
    cases l
    case number x => cases hx : Expr.wholeNumber?.isWhole x <;> simp [Expr.wholeNumber?, hx]
    all_goals rfl
  case unary => cases h
  all_goals rfl

-- The induction is on the expression. Its last token must not be continued by what comes after it,
-- so each case looks at the first character of what it writes next.
mutual

theorem reads_expression (hs : ∀ x, (s.slot? x).isSome → isVariable x = true) :
    (e : Expr) → (∀ n ∈ e.nodes, n.Legible) →
    Reads Phrase (sticks e.wholeNumber?.isSome) (Source.expression s e).toList (e.reread s)
  | .literal l, h => reads_constant l (h _ (.head _))
  | .name x, _ => reads_variable (hs x)
  | .array items, h => by
    have hi := reads_expressions hs items fun n hn => h n (.tail _ hn)
    have h := hi.enclosed (p := sticks false) (Q := Phrase) .brackets fun _ _ hk =>
      .of_primary (.array hk)
    simpa [Source.expression, Expr.reread, Expr.wholeNumber?, Punct.text, String.toList_append]
      using h
  | .object entries, h => by
    have hi := reads_fields hs entries fun n hn => h n (.tail _ hn)
    have h := hi.enclosed (p := sticks false) (Q := Phrase) .braces fun _ _ hk =>
      .of_primary (.object hk)
    simpa [Source.expression, Expr.reread, Expr.wholeNumber?, Punct.text, String.toList_append]
      using h
  | .member o name, h => by
    have hn : isName name.toList = true := h _ (.head _)
    have ho := reads_expression hs o fun n hn => h n (.tail _ hn)
    have hm : Reads (fun ks (_ : Unit) => ks = [.punct .dot, .name name]) (sticks false)
        ("." ++ name).toList (some ()) := .token fun bs hb => lexes_member hn hb.names
    cases hw : o.wholeNumber?
    case none =>
      rw [hw] at ho
      have h := ho.suffix (f := fun e _ => .member e name) hm
        (fun _ _ => by rw [String.toList_append]; rfl) fun _ _ _ _ hp hk => hk ▸ .member hp
      have hf : (Expr.member o name).wholeNumber? = none := rfl
      simpa [Source.expression, Expr.reread, String.toList_append, hf, hw, hn, Option.map_eq_bind,
        Function.comp_def] using h
    case some =>
      have h := reads_whole_member (s := s) hw (fun n hn => h n (.tail _ hn)) hn
      have hf : (Expr.member o name).wholeNumber? = none := rfl
      simpa [Source.expression, Expr.reread, String.toList_append, hf, hw, hn] using h
  | .index o i, h => by
    have ⟨_, h⟩ := List.forall_mem_cons.mp h
    have ⟨ho, hi⟩ := List.forall_mem_append.mp h
    have h := reads_suffix .brackets (fun _ => rfl) (reads_expression hs o ho)
      (reads_expression hs i hi) (f := fun e i => .index e i.expr)
      fun _ _ _ _ hp hi => .index hp hi.conditional
    simpa [Source.expression, Expr.reread, Expr.wholeNumber?, Punct.text, String.toList_append]
      using h
  | .call callee arguments, h => by
    have ⟨_, h⟩ := List.forall_mem_cons.mp h
    have ⟨hc, ha⟩ := List.forall_mem_append.mp h
    have h := reads_suffix .parens (fun _ => rfl) (reads_expression hs callee hc)
      (reads_expressions hs arguments ha) (f := .call) fun _ _ _ _ => .call
    simpa [Source.expression, Expr.reread, Expr.wholeNumber?, Punct.text, String.toList_append]
      using h
  | .unary op operand, h => by
    have ⟨_, h⟩ := List.forall_mem_cons.mp h
    have hr := reads_expression hs operand h
    cases hu : operand.isUnary
    case false =>
      have h := reads_prefixed op hr (opens_expression hs operand h).ends
      rw [←@wholeNumber?_unary op operand hu] at h
      simpa [Source.expression, Expr.reread, String.toList_append, hu] using h
    case true =>
      have hg := hr.enclosed (p := sticks false) (Q := Phrase) .parens fun _ _ hk =>
        .of_primary (.group hk.conditional)
      have h := reads_prefixed op hg fun _ => rfl
      have hw : (Expr.unary op operand).wholeNumber? = none := by
        cases operand
        case unary => rfl
        all_goals cases hu
      simpa [Source.expression, Expr.reread, Punct.text, String.toList_append, hu, hw,
        Function.comp_def] using h
  | .binary op lhs rhs, h => by
    have ⟨_, h⟩ := List.forall_mem_cons.mp h
    have ⟨hl, hr⟩ := List.forall_mem_append.mp h
    have h := (reads_expression hs lhs hl).separated (R := Conditional) (reads_expression hs rhs hr)
      (" " ++ op.text ++ " ").toList (fun _ => lexes_operator op)
      (fun _ => by rw [String.toList_append, String.toList_append]; rfl)
      fun _ _ _ _ hx hy => hx.chain op hy
    have h := h.enclosed (p := sticks false) (Q := Phrase) .parens fun _ _ hk =>
      .of_primary (.group hk)
    simpa [Source.expression, Expr.reread, Expr.wholeNumber?, Punct.text, String.toList_append,
      Option.map_bind, Function.comp_def] using h
  | .cond test consequent alternate, h => by
    have ⟨_, h⟩ := List.forall_mem_cons.mp h
    have ⟨htc, ha⟩ := List.forall_mem_append.mp h
    have ⟨ht, hc⟩ := List.forall_mem_append.mp htc
    have h := (reads_expression hs consequent hc).separated (reads_expression hs alternate ha)
      " : ".toList (fun _ => lexes_alternate) (fun _ => rfl) (f := fun x y => (x.expr, y.expr))
      (R := fun ks (e : Expr × Expr) => ∃ ks₁ ks₂, ks = ks₁ ++ .punct .colon :: ks₂ ∧
        Conditional ks₁ e.1 ∧ Conditional ks₂ e.2)
      fun _ _ _ _ hx hy => ⟨_, _, rfl, hx.conditional, hy.conditional⟩
    have h := (reads_expression hs test ht).separated (R := Conditional) h
      " ? ".toList (fun _ => lexes_question) (fun _ => rfl) (f := fun x y => .cond x.expr y.1 y.2)
      fun _ _ _ _ hx ⟨_, _, hk, hy⟩ => hk ▸ .cond (hx.binary (by decide)) hy.1 hy.2
    have h := h.enclosed (p := sticks false) (Q := Phrase) .parens fun _ _ hk =>
      .of_primary (.group hk)
    simpa [Source.expression, Expr.reread, Expr.wholeNumber?, Punct.text, String.toList_append,
      Option.map_bind, Function.comp_def] using h

theorem reads_expressions (hs : ∀ x, (s.slot? x).isSome → isVariable x = true) :
    (es : List Expr) → (∀ n ∈ Expr.nodesAll es, n.Legible) →
    Reads Items (sticks true) (Source.expressions s es).toList (Expr.rereadAll s es)
  | [], _ => ⟨some [], .some .nil, fun _ _ => (nil_joined _).symm⟩
  | [e], h => by
    have he := reads_expression hs e (List.forall_mem_append.mp h).1
    have h := he.whole.map (Q := Items) fun _ _ hk => .last hk.conditional
    simpa [Source.expressions, Expr.rereadAll, Option.map_eq_bind, Function.comp_def] using h
  | e :: e' :: es, h => by
    have ⟨he, hes⟩ := List.forall_mem_append.mp h
    have hr := reads_expressions hs (e' :: es) hes
    have h := (reads_expression hs e he).separated (R := Items) hr ", ".toList
      (fun _ => lexes_comma) (fun _ => rfl) fun _ _ _ _ hx => .cons hx.conditional
    simpa [Source.expressions, Expr.rereadAll, String.toList_append] using h

theorem reads_fields (hs : ∀ x, (s.slot? x).isSome → isVariable x = true) :
    (entries : List (String × Expr)) → (∀ n ∈ Expr.nodesEntries entries, n.Legible) →
    Reads Entries (sticks true) (Source.fields s entries).toList (Expr.rereadEntries s entries)
  | [], _ => ⟨some [], .some .nil, fun _ _ => (nil_joined _).symm⟩
  | [(k, e)], h => by
    have he := reads_entry k (reads_expression hs e (List.forall_mem_append.mp h).1)
    have h := he.whole.map (Q := Entries) fun _ _ => .last
    simpa [Source.fields, Expr.rereadEntries, Option.map_eq_bind, Option.bind_assoc,
      Function.comp_def, String.toList_append] using h
  | (k, e) :: entry :: entries, h => by
    have ⟨he, hes⟩ := List.forall_mem_append.mp h
    have he := reads_entry k (reads_expression hs e he)
    have h := he.separated (R := Entries) (reads_fields hs (entry :: entries) hes) ", ".toList
      (fun _ => lexes_comma) (fun _ => rfl) fun _ _ _ _ => .cons
    simpa [Source.fields, Expr.rereadEntries, Option.bind_map, Function.comp_def,
      String.toList_append] using h

end

end Token
end Stencil
