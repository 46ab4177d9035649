import Stencil.Code.Scope
import Stencil.Proofs.Act
import Stencil.Proofs.Fields
import Stencil.Proofs.Number.Text
import Stencil.Proofs.Splitting.Enclosed
import Stencil.Render.Eval

-- Numbers as keys of object literals, and as the keys by which the fields are looked up.
namespace Stencil

namespace Token

variable {x : Float} {c : Char} {cs t u : List Char} {ks : List Kind} {offset n : Nat}

theorem eq_toFloat_of_read (h : read offset c cs = .ok (.number x, n)) :
    ∃ d : Decimal, x = d.toFloat := by
  unfold read at h
  split at h
  case isTrue =>
    simp only at h
    split at h <;> cases h
    case h_1 d _ => exact ⟨d, rfl⟩
  case isFalse =>
    split at h
    case isTrue => split at h <;> cases h
    case isFalse =>
      split at h
      case isTrue => cases h
      case isFalse => split at h <;> cases h

theorem Lexed.eq_toFloat (h : Lexed cs ks) (hx : .number x ∈ ks) :
    ∃ d : Decimal, x = d.toFloat := by
  induction h
  case nil => cases hx
  case blank hi => exact hi hx
  case token he _ hi =>
    cases hx
    case head => exact eq_toFloat_of_read (he.stable 0 [] nofun)
    case tail hx => exact hi hx

theorem Lexes.kinds_eq {bs : List Char} {ks' : List Kind} (h : Lexes cs (some ks) bs)
    (hb : kinds bs = some ks') : kinds (cs ++ bs) = some (ks ++ ks') := by
  rw [h, hb, joined_some]

-- The tokens of an object with a single field, and of the look-up of that field.
theorem kinds_lookup (ht : Lexed t [.number x]) (hu : Lexed u ks) :
    kinds ('{' :: (t ++ ':' :: (u ++ '}' :: '[' :: (t ++ [']'])))) =
      some (.punct .openBrace :: (.number x :: .punct .colon :: ks ++ [.punct .closeBrace]) ++
        .punct .openBracket :: ([.number x] ++ [.punct .closeBracket])) := by
  have hi : Lexes ['['] (some [.punct .openBracket]) (t ++ [']']) :=
    lexes_punct (p := .openBracket) rfl nofun
  have hb : Lexes ['}'] (some [.punct .closeBrace]) ('[' :: (t ++ [']'])) :=
    lexes_punct (p := .closeBrace) rfl nofun
  have hc : Lexes [':'] (some [.punct .colon]) (u ++ '}' :: '[' :: (t ++ [']'])) :=
    lexes_punct (p := .colon) rfl nofun
  have ho : Lexes ['{'] (some [.punct .openBrace])
      (t ++ ':' :: (u ++ '}' :: '[' :: (t ++ [']']))) := lexes_punct (p := .openBrace) rfl nofun
  have h₁ : kinds (t ++ [']']) = some ([.number x] ++ [.punct .closeBracket]) :=
    (ht.lexes_before_close (by decide)).kinds_eq rfl
  have h₂ := hb.kinds_eq (hi.kinds_eq h₁)
  have h₃ := (hu.lexes_before_close (by decide)).kinds_eq h₂
  have h₄ := (ht.lexes_before_close (by decide)).kinds_eq (hc.kinds_eq h₃)
  refine (ho.kinds_eq h₄).trans ?_
  simp

end Token

namespace Expr

open Token Grammar

variable {x : Float} {t u : List Char} {v : Expr}

theorem read_lookup (ht : kinds t = some [.number x]) (hu : Expr.read u = .ok v) :
    Expr.read ('{' :: (t ++ ':' :: (u ++ '}' :: '[' :: (t ++ [']'])))) =
      .ok (.index (.object [(Number.key x, v)]) (.literal (.number x))) := by
  obtain ⟨ks, hk, hc⟩ := read_eq_ok_iff_conditional.mp hu
  have hl := kinds_lookup (kinds_eq_some_iff.mp ht) (kinds_eq_some_iff.mp hk)
  refine read_eq_ok_iff_conditional.mpr ⟨_, hl, ?_⟩
  have he : Entry (.number x :: .punct .colon :: ks) (Number.key x, v) := .full rfl hc
  have ho := Postfix.plain (.object (.last he))
  have hn : Conditional [.number x] (.literal (.number x)) :=
    .plain (.mono (.unary (.plain (.plain .number))) (by decide))
  exact .plain (.mono (.unary (.plain (.index ho hn))) (by decide))

end Expr

namespace Eval

variable {σ : Type} {host : Host σ} {input : Input} {key : String} {code : Code} {x : Float}
  {s s' : State σ}

theorem eval_field {v : Value} (h : eval host input code s = (.ok v, s')) :
    eval host input (.object [(key, code)]) s =
      (.ok (.object (host.fresh s'.store).1 [(key, v)]),
        { s' with store := (host.fresh s'.store).2 }) := by
  have he : evalEntries host input [(key, code)] s = (.ok [(key, v)], s') := Act.bind_apply_ok h
  exact Act.bind_apply_ok he

-- The single field is found if its key is the text of the number.
theorem eval_lookup {v : Value} (h : eval host input code s = (.ok v, s')) :
    eval host input (.index (.object [(key, code)]) (.literal (.number x))) s =
      (.ok (if key = (Value.number x).text then v else .undefined),
        { s' with store := (host.fresh s'.store).2 }) := by
  have hg : (Value.object (host.fresh s'.store).1 [(key, v)]).getIndex (.number x) =
      .ok (if key = (Value.number x).text then v else .undefined) := by
    rw [Value.getIndex, Value.get, Fields.get?_cons, Fields.get?_nil]
    split <;> rfl
  exact (Act.bind_apply_ok (eval_field h)).trans (congrArg (·, _) hg)

theorem eval_lookup_error {e : RenderError} (h : eval host input code s = (.error e, s')) :
    eval host input (.index (.object [(key, code)]) (.literal (.number x))) s = (.error e, s') := by
  have he : evalEntries host input [(key, code)] s = (.error e, s') := Act.bind_apply_error h
  have ho : eval host input (.object [(key, code)]) s = (.error e, s') := Act.bind_apply_error he
  exact Act.bind_apply_error ho

-- The key under which an object literal has the value of a field is that under which a look-up by
-- the same number finds it, for zero and from a millionth up to `10 ^ 21`. A look-up by any other
-- number that can be written finds nothing.
theorem numeric_key_found_iff {t u : List Char} {v : Expr} {offset : Nat}
    (ht : Token.scan t = .ok [⟨.number x, offset⟩]) (hu : Expr.read u = .ok v) :
    ∃ e, e = .index (.object [(Number.key x, v)]) (.literal (.number x)) ∧
      Expr.read ('{' :: (t ++ ':' :: (u ++ '}' :: '[' :: (t ++ [']'])))) = .ok e ∧
      (Number.key x = (Value.number x).text ↔ x == 0 ∨ 1e-6 ≤ x ∧ x < 1e21) ∧
      ∀ {σ : Type} (host : Host σ) (input : Input) (scope : Scope) (s s' : State σ),
        (∀ w, eval host input (v.toCode scope) s = (.ok w, s') →
          eval host input (e.toCode scope) s =
            (.ok (if x == 0 ∨ 1e-6 ≤ x ∧ x < 1e21 then w else .undefined),
              { s' with store := (host.fresh s'.store).2 })) ∧
        ∀ error, eval host input (v.toCode scope) s = (.error error, s') →
          eval host input (e.toCode scope) s = (.error error, s') := by
  have hk : Token.kinds t = some [.number x] := by
    rw [Token.kinds, ht]
    rfl
  obtain ⟨d, hd⟩ := (Token.kinds_eq_some_iff.mp hk).eq_toFloat (.head _)
  have hx : Number.key x = (Value.number x).text ↔ x == 0 ∨ 1e-6 ≤ x ∧ x < 1e21 :=
    Number.key_eq_text_iff (hd ▸ Number.unsigned_toFloat d)
  refine ⟨_, rfl, Expr.read_lookup hk hu, hx, fun host input scope s s' => ⟨?_, ?_⟩⟩
  · intro w hw
    refine (eval_lookup hw).trans ?_
    simp only [hx]
  · intro error he
    exact eval_lookup_error he

theorem numeric_key_found_iff_fraction :
    Token.scan "0.5".toList = .ok [⟨.number 0.5, 0⟩] ∧
      Expr.read "\x7b0.5:a\x7d[0.5]".toList =
        .ok (.index (.object [("0.5", .name "a")]) (.literal (.number 0.5))) := by
  have ht : Token.scan "0.5".toList = .ok [⟨.number 0.5, 0⟩] := by rfl
  have hu : Expr.read "a".toList = .ok (.name "a") := by rfl
  obtain ⟨e, he, hr, _⟩ := numeric_key_found_iff ht hu
  refine ⟨ht, hr.trans (congrArg Except.ok (he.trans ?_))⟩
  have hk : Number.key 0.5 = "0.5" := by rfl
  rw [hk]

-- A key in positional notation and a look-up in scientific notation.
theorem large_key_not_found :
    Token.scan "1e21".toList = .ok [⟨.number 1e21, 0⟩] ∧
      Number.key 1e21 = "1000000000000000000000" ∧ (Value.number 1e21).text = "1e+21" ∧
      (Value.object 0 [(Number.key 1e21, .bool true)]).getIndex (.number 1e21) = .ok .undefined :=
  ⟨by rfl, by rfl, by rfl, by rfl⟩

end Eval
end Stencil
