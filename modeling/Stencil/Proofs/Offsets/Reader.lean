import Stencil.Proofs.Descent.Agreement
import Stencil.Proofs.Offsets.Lexer

-- Every offset that reading a text leads to is one of its boundaries.
namespace Stencil

-- The error is at an offset with a property, or at what 32 bits can hold of it.
def ExprError.At (e : ExprError) (P : Nat → Prop) : Prop :=
  ∃ n, P n ∧ e.place = .ofNat n

theorem ExprError.At.imp {e : ExprError} {P Q : Nat → Prop} (h : e.At P) (hi : ∀ n, P n → Q n) :
    e.At Q :=
  Exists.imp (fun n => And.imp_left (hi n)) h

theorem ExprError.At.ofFault {fault : ExprFault} {offset : Nat} {P : Nat → Prop} (h : P offset) :
    (ExprError.ofFault fault offset).At P :=
  ⟨offset, h, rfl⟩

-- Reads an expression by byte offsets and the indices of its marks.
def Cursor.read (source : List Char) : Except Halt Expr :=
  if source.all isBlank then .error (.error (.ofFault .blank 0))
  else
    match Cursor.marks source with
    | .error e => .error e
    | .ok ms => (Descent.expression (Descent.clamped ms) (7 * ms.length) 0).1

namespace Expr

open Reading (read_eq_run)

theorem read_eq_cursor (cs : List Char) : Cursor.read cs = (read cs).mapError .error := by
  rw [Cursor.read, Token.marks_eq_cursor]
  cases hb : cs.all isBlank
  case true =>
    simp only [read, hb]
    rfl
  case false =>
    cases hs : Token.scan cs
    case error =>
      simp only [Token.marks, read, hb, hs]
      rfl
    case ok ts =>
      rw [read_eq_run hb hs, Token.marks, hs]
      exact (Descent.expression_eq fun _ => Descent.clamped_eq).1

end Expr

namespace Token

-- An offset at a boundary of `cs`, when `cs` itself starts at the offset `start`.
def Within (cs : List Char) (start n : Nat) : Prop :=
  ∃ as bs, cs = as ++ bs ∧ n = start + byteWidth as

variable {cs : List Char} {c : Char} {start offset n : Nat} {e : ExprError}

theorem Within.refl : Within cs n n :=
  ⟨[], cs, rfl, rfl⟩

theorem Within.append (as : List Char) (h : Within cs (offset + byteWidth as) n) :
    Within (as ++ cs) offset n := by
  obtain ⟨bs, rest, rfl, rfl⟩ := h
  exact ⟨as ++ bs, rest, by simp, by rw [byteWidth_append, Nat.add_assoc]⟩

theorem Within.cons (h : Within cs (offset + c.utf8Size) n) : Within (c :: cs) offset n :=
  .append [c] h

theorem Within.boundary (h : Within cs 0 n) : Boundary cs n := by
  obtain ⟨as, bs, rfl, rfl⟩ := h
  rw [Nat.zero_add]
  exact boundary_append

theorem of_extend_error {text : List Char} {r : Except ExprError (List Char × Nat)}
    (h : stringRest.extend text n r = .error e) : r = .error e := by
  cases r <;> cases h
  rfl

-- An error in a string literal shows where the literal starts, or after a backslash in it.
theorem within_of_stringRest {quote : Char} (h : stringRest quote start cs offset = .error e) :
    e.At fun n => n = start ∨ Within cs offset n := by
  fun_induction stringRest quote start cs offset
  case case1 | case2 =>
    cases h
    exact .ofFault (.inl rfl)
  case case3 | case5 | case6 | case8 =>
    cases h
    exact .ofFault (.inr (Within.cons .refl))
  case case4 a b cs offset c hc hi =>
    refine (hi (of_extend_error h)).imp fun n => .imp_right fun hi =>
      .append ('\\' :: 'x' :: [a, b]) ?_
    rwa [byteWidth_escape rfl hc]
  case case7 a b a' b' cs offset c hc hi =>
    refine (hi (of_extend_error h)).imp fun n => .imp_right fun hi =>
      .append ('\\' :: 'u' :: [a, b, a', b']) ?_
    rwa [byteWidth_escape rfl hc]
  case case9 c cs offset _ _ _ _ hi =>
    exact (hi (of_extend_error h)).imp fun n => .imp_right fun hi => .cons (.cons hi)
  case case10 => cases h
  case case11 hi => exact (hi (of_extend_error h)).imp fun n => .imp_right .cons

theorem within_of_read (h : Token.read offset c cs = .error e) :
    e.At (Within (c :: cs) offset) := by
  unfold Token.read at h
  split at h
  case isTrue =>
    simp only at h
    split at h <;> cases h
    exact .ofFault .refl
  case isFalse =>
    split at h
    case isTrue hq =>
      have hq : c = '"' ∨ c = '\'' := by simpa using hq
      have hw : c.utf8Size = 1 := by rcases hq with rfl | rfl <;> rfl
      split at h
      case h_1 => cases h
      case h_2 hs =>
        cases h
        refine (within_of_stringRest hs).imp fun n hn => ?_
        rcases hn with rfl | hn
        case inl => exact .refl
        case inr => exact .cons (hw ▸ hn)
    case isFalse =>
      split at h
      case isTrue => cases h
      case isFalse =>
        split at h <;> cases h
        exact .ofFault .refl

theorem within_of_scanFrom_error {skip : Nat} (h : scanFrom cs skip offset = .error e) :
    e.At (Within cs offset) := by
  fun_induction scanFrom cs skip offset
  case case1 => cases h
  case case2 hi | case3 hi => exact (hi h).imp fun _ => .cons
  case case4 hr =>
    cases h
    exact within_of_read hr
  case case5 hs hi =>
    cases h
    exact (hi hs).imp fun _ => .cons
  case case6 => cases h

theorem within_of_scanFrom_ok {skip : Nat} {ts : List Token}
    (h : scanFrom cs skip offset = .ok ts) : ∀ t ∈ ts, Within cs offset t.offset := by
  fun_induction scanFrom cs skip offset generalizing ts
  case case1 =>
    cases h
    exact List.forall_mem_nil _
  case case2 hi | case3 hi => exact fun t ht => .cons (hi h t ht)
  case case6 hs hi =>
    cases h
    exact List.forall_mem_cons.mpr ⟨.refl, fun t ht => .cons (hi hs t ht)⟩
  all_goals cases h

theorem boundary_of_marks {ms : List Mark} (h : marks cs = .ok ms) :
    ∀ m ∈ ms, Boundary cs m.offset := by
  unfold marks at h
  split at h
  case h_1 => cases h
  case h_2 ts hs =>
    cases h
    rw [List.forall_mem_append, List.forall_mem_map, List.forall_mem_singleton]
    exact ⟨fun t ht => (within_of_scanFrom_ok hs t ht).boundary, boundary_byteWidth⟩

end Token

namespace Expr

theorem Reading.offset_of_run {stop : Nat} {ts : List Token} {r : Reading} {e : ExprError}
    (h : run stop ts r = .error e) : e.At fun n => n = stop ∨ ∃ t ∈ ts, n = t.offset := by
  fun_induction run stop ts r
  case case2 =>
    cases h
    exact .ofFault (.inl rfl)
  case case3 hi =>
    exact (hi h).imp fun _ => .imp_right fun ⟨t, ht, hn⟩ => ⟨t, .tail _ ht, hn⟩
  case case4 t _ _ _ _ =>
    cases h
    exact .ofFault (.inr ⟨t, .head _, rfl⟩)
  case case1 => cases h

theorem boundary_of_read {cs : List Char} {e : ExprError} (h : read cs = .error e) :
    e.At (Boundary cs) := by
  unfold read at h
  split at h
  case isTrue =>
    cases h
    exact .ofFault Token.Within.refl.boundary
  case isFalse =>
    split at h
    case h_1 hs =>
      cases h
      exact (Token.within_of_scanFrom_error hs).imp fun _ h => h.boundary
    case h_2 hs =>
      refine (Reading.offset_of_run h).imp fun n hn => ?_
      rcases hn with rfl | ⟨t, ht, rfl⟩
      case inl => exact boundary_byteWidth
      case inr => exact (Token.within_of_scanFrom_ok hs t ht).boundary

end Expr

-- Reading by offsets never goes astray and gives the same as reading by characters. This goes for
-- the tokens of a text and the expression that it spells, for its pieces between separators, and
-- for the parenthesis at its start. Parsing keeps the index among the marks of the text, also where
-- it is cut short, and what would be seen behind them makes no difference. All offsets are
-- boundaries, also that of an error when it is cut to 32 bits, if the text is not too long for it.
theorem offsets_on_boundaries (cs : List Char) :
    (Cursor.marks cs = (Token.marks cs).mapError .error ∧
      ∀ ms, Token.marks cs = .ok ms → ∀ m ∈ ms, Boundary cs m.offset) ∧
    (Cursor.read cs = (Expr.read cs).mapError .error ∧
      ∀ e, Expr.read cs = .error e → (∃ n, Boundary cs n ∧ e.place = .ofNat n) ∧
        (byteWidth cs < UInt32.size → Boundary cs e.offset)) ∧
    (∀ ms look, Token.marks cs = .ok ms → (∀ i < ms.length, look i = ms[i]?) →
      (∀ fuel i, i < ms.length → i ≤ (Descent.expression look fuel i).2 ∧
        (Descent.expression look fuel i).2 < ms.length) ∧
      (cs.all isBlank = false →
        (Descent.expression look (7 * ms.length) 0).1 = (Expr.read cs).mapError .error)) ∧
    (∀ separator,
      splitAtOffsets separator cs cs 0 .outside 0 0 = some (splitOutside separator cs)) ∧
    (∀ start stop, matchingParen cs start = some stop →
      Boundary cs stop ∧ Boundary cs (stop + 1)) ∧
    enclosedAtOffsets cs = some (enclosed? cs) := by
  refine ⟨⟨Token.marks_eq_cursor cs, fun ms h => Token.boundary_of_marks h⟩,
    ⟨Expr.read_eq_cursor cs, fun e h => ?_⟩, fun ms look hm hl => ?_,
    fun s => splitAtOffsets_eq_splitOutside s cs, fun _ _ => matchingParen_boundary,
    enclosedAtOffsets_eq cs⟩
  case refine_1 =>
    obtain ⟨n, hb, hp⟩ := Expr.boundary_of_read h
    refine ⟨⟨n, hb, hp⟩, fun hw => ?_⟩
    rwa [ExprError.offset_eq_of_lt hp (Nat.lt_of_le_of_lt hb.le hw)]
  case refine_2 =>
    obtain ⟨ts, rfl, hs⟩ := Expr.Reading.exists_marksTo hm
    obtain ⟨he, hk⟩ := Descent.expression_eq hl
    refine ⟨hk, fun hb => ?_⟩
    rw [he, Expr.Reading.read_eq_run hb hs]

-- The umlaut is two bytes wide, so the comma is at the offset 5 and there is nothing at 3. The
-- parser stops at the mark behind the comma.
theorem offsets_on_boundaries_wide :
    let cs := "(\"ü\", k] x".toList
    let ms : List Token.Mark := [⟨some (.punct .openParen), 0⟩, ⟨some (.string "ü"), 1⟩,
      ⟨some (.punct .comma), 5⟩, ⟨some (.name "k"), 7⟩, ⟨some (.punct .closeBracket), 8⟩,
      ⟨some (.name "x"), 10⟩, ⟨none, 11⟩]
    Token.marks cs = .ok ms ∧ matchingParen cs 0 = some 8 ∧ ¬Boundary cs 3 ∧
      (∀ m ∈ ms, Boundary cs m.offset) ∧ (Boundary cs 8 ∧ Boundary cs 9) ∧
      ∃ e, Expr.read cs = .error e ∧ e.offset = 5 ∧ Boundary cs e.offset ∧
        Descent.expression (ms[·]?) 49 0 = (.error (.error e), 3) := by
  intro cs ms
  have h := offsets_on_boundaries cs
  have hm : Token.marks cs = .ok ms := by rfl
  have hp : matchingParen cs 0 = some 8 := by rfl
  obtain ⟨e, he, ho⟩ : ∃ e, Expr.read cs = .error e ∧ e.offset = 5 := ⟨_, rfl, rfl⟩
  have hd := (h.2.2.1 ms (ms[·]?) hm fun _ _ => rfl).2 (by decide)
  refine ⟨hm, hp, by decide, h.1.2 ms hm, h.2.2.2.2.1 0 8 hp, e, he, ho,
    (h.2.1.2 e he).2 (by decide), Prod.ext ?_ rfl⟩
  rw [he] at hd
  exact hd

end Stencil
