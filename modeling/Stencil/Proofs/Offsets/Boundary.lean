import Stencil.Proofs.Splitting.Matching

-- Texts that are cut at byte offsets.
namespace Stencil

variable {as bs cs before after mid separator source : List Char} {i n start stop : Nat}

-- An offset at which a character starts or the text ends.
def Boundary (cs : List Char) (n : Nat) : Prop :=
  String.Pos.Raw.IsValid (.ofList cs) ⟨n⟩

theorem utf8ByteSize_ofList (cs : List Char) : (String.ofList cs).utf8ByteSize = byteWidth cs := by
  induction cs
  case nil => rfl
  case cons c cs hi =>
    rw [String.ofList_cons, String.utf8ByteSize_append, hi, String.utf8ByteSize_singleton,
      byteWidth]

theorem boundary_iff :
    Boundary cs n ↔ ∃ before after, cs = before ++ after ∧ byteWidth before = n := by
  rw [Boundary, String.Pos.Raw.isValid_iff_exists_append]
  constructor
  case mp =>
    rintro ⟨s, t, hs, hn⟩
    refine ⟨s.toList, t.toList, ?_, ?_⟩
    case refine_1 => rw [←String.toList_append, ←hs, String.toList_ofList]
    case refine_2 =>
      rw [←utf8ByteSize_ofList, String.ofList_toList]
      exact (congrArg String.Pos.Raw.byteIdx hn).symm
  case mpr =>
    rintro ⟨before, after, rfl, rfl⟩
    exact ⟨.ofList before, .ofList after, String.ofList_append,
      congrArg String.Pos.Raw.mk (utf8ByteSize_ofList before).symm⟩

theorem boundary_append : Boundary (before ++ after) (byteWidth before) :=
  boundary_iff.mpr ⟨before, after, rfl, rfl⟩

theorem boundary_byteWidth : Boundary cs (byteWidth cs) :=
  boundary_iff.mpr ⟨cs, [], (List.append_nil cs).symm, rfl⟩

theorem Boundary.le (h : Boundary cs n) : n ≤ byteWidth cs := by
  obtain ⟨before, after, rfl, rfl⟩ := boundary_iff.mp h
  rw [byteWidth_append]
  exact Nat.le_add_right _ _

theorem boundary_iff_isSome : Boundary cs n ↔ (dropBytes n cs).isSome := by
  simp only [boundary_iff, Option.isSome_iff_exists, dropBytes_eq_some_iff]
  exact exists_comm

instance : Decidable (Boundary cs n) :=
  decidable_of_iff' _ boundary_iff_isSome

theorem dropBytes_append : dropBytes (byteWidth before) (before ++ after) = some after :=
  dropBytes_eq_some_iff.mpr ⟨before, rfl, rfl⟩

-- The first bytes of a text, when they are whole characters.
def takeBytes : Nat → List Char → Option (List Char)
  | 0, _ => some []
  | _ + 1, [] => none
  | n + 1, c :: cs =>
    if c.utf8Size ≤ n + 1 then (takeBytes (n + 1 - c.utf8Size) cs).map (c :: ·) else none

theorem takeBytes_eq_some_iff :
    takeBytes n cs = some as ↔ ∃ after, cs = as ++ after ∧ byteWidth as = n := by
  fun_induction takeBytes n cs generalizing as
  case case1 cs =>
    constructor
    case mp =>
      rintro ⟨⟩
      exact ⟨cs, rfl, rfl⟩
    case mpr =>
      rintro ⟨_, _, ha⟩
      rw [eq_nil_of_byteWidth ha]
  case case2 n =>
    simp only [reduceCtorEq, false_iff, not_exists, not_and]
    intro after he
    rw [(List.append_eq_nil_iff.mp he.symm).1]
    exact nofun
  case case3 n c cs hc hi =>
    simp only [Option.map_eq_some_iff, hi]
    constructor
    case mp =>
      rintro ⟨as, ⟨after, rfl, ha⟩, rfl⟩
      exact ⟨after, rfl, by rw [byteWidth, ha, Nat.add_sub_cancel' hc]⟩
    case mpr =>
      rintro ⟨after, he, ha⟩
      cases as
      case nil => cases ha
      case cons =>
        cases he
        exact ⟨_, ⟨_, rfl, Nat.eq_sub_of_add_eq' ha⟩, rfl⟩
  case case4 n c cs hc =>
    simp only [reduceCtorEq, false_iff, not_exists, not_and]
    intro after he ha
    cases as
    case nil => cases ha
    case cons =>
      cases he
      simp only [byteWidth] at ha
      omega

-- The text between two offsets, when they are boundaries and in order.
def slice? (cs : List Char) (start stop : Nat) : Option (List Char) :=
  if start ≤ stop then (dropBytes start cs).bind (takeBytes (stop - start)) else none

theorem slice?_eq_some_iff :
    slice? cs start stop = some mid ↔
      ∃ before after, cs = before ++ (mid ++ after) ∧
        byteWidth before = start ∧ byteWidth (before ++ mid) = stop := by
  unfold slice?
  split
  case isTrue hl =>
    simp only [Option.bind_eq_some_iff, dropBytes_eq_some_iff, takeBytes_eq_some_iff]
    constructor
    case mp =>
      rintro ⟨_, ⟨before, hs, hb⟩, after, rfl, hm⟩
      refine ⟨before, after, hs, hb, ?_⟩
      rw [byteWidth_append]
      omega
    case mpr =>
      rintro ⟨before, after, hs, hb, hm⟩
      rw [byteWidth_append] at hm
      exact ⟨_, ⟨before, hs, hb⟩, after, rfl, by omega⟩
  case isFalse hl =>
    simp only [reduceCtorEq, false_iff, not_exists, not_and]
    intro before after _ hb hm
    rw [byteWidth_append] at hm
    omega

theorem slice?_append (before mid after : List Char) :
    slice? (before ++ (mid ++ after)) (byteWidth before) (byteWidth (before ++ mid)) = some mid :=
  slice?_eq_some_iff.mpr ⟨before, after, rfl, rfl, rfl⟩

theorem utf8Size_of_isClosing {c : Char} (h : isClosing c = true) : c.utf8Size = 1 := by
  simp only [isClosing, Bool.or_eq_true, beq_iff_eq] at h
  rcases h with (rfl | rfl) | rfl <;> rfl

-- What ends a parenthesis is one byte wide, so that the next offset is a boundary as well.
theorem matchingParen_boundary (h : matchingParen cs start = some stop) :
    Boundary cs stop ∧ Boundary cs (stop + 1) := by
  have ⟨before, inner, c, after, _, he, hb, hi, hc, _⟩ := matchingParen_eq_some_iff.mp h
  have ho : '('.utf8Size = 1 := rfl
  have hc := utf8Size_of_isClosing (Bool.and_eq_true_iff.mp hc).2
  refine ⟨boundary_iff.mpr ⟨before ++ '(' :: inner, c :: after, by simp [he], ?_⟩,
    boundary_iff.mpr ⟨before ++ '(' :: inner ++ [c], after, by simp [he], ?_⟩⟩
  case refine_1 => simp [byteWidth, hb, hi, ho, Nat.add_assoc]
  case refine_2 => simp [byteWidth, hb, hi, ho, hc, Nat.add_assoc]

-- What a parenthesis at the start of a text encloses and what follows it, cut out by the offset of
-- its end.
def enclosedAtOffsets (cs : List Char) : Option (Option (List Char × List Char)) :=
  match matchingParen cs 0 with
  | none => some none
  | some stop => do
    let inner ← slice? cs 1 stop
    let rest ← dropBytes (stop + 1) cs
    return some (inner, rest)

theorem enclosedAtOffsets_eq (cs : List Char) : enclosedAtOffsets cs = some (enclosed? cs) := by
  rw [enclosedAtOffsets, matchingParen, dropBytes, Option.bind_some]
  cases he : enclosed? cs
  case none => rfl
  case some r =>
    obtain ⟨inner, rest⟩ := r
    obtain ⟨c, _, hs, hc, _⟩ := enclosed?_eq_some_iff.mp he
    have ho : '('.utf8Size = 1 := rfl
    have hc := utf8Size_of_isClosing hc
    have hi : slice? cs 1 (1 + byteWidth inner) = some inner := by
      have h := slice?_append ['('] inner (c :: rest)
      simpa [hs, byteWidth, ho] using h
    have hr : dropBytes (1 + byteWidth inner + 1) cs = some rest :=
      dropBytes_eq_some_iff.mpr ⟨'(' :: (inner ++ [c]), by simp [hs], by
        simp [byteWidth, ho, hc, Nat.add_assoc]⟩
    simp [hi, hr]

-- The pieces of a text, cut out of it at offsets. The walk stands before `cs` at the offset `i`, in
-- a piece that starts at `start`. A separator that it has found goes on up to `skip`.
def splitAtOffsets (separator source : List Char) :
    List Char → (i : Nat) → Nesting → (start skip : Nat) → Option (List (List Char))
  | [], _, _, start, _ => do return [← dropBytes start source]
  | c :: cs, i, n, start, skip =>
    if i < skip then splitAtOffsets separator source cs (i + c.utf8Size) n start skip
    else do
      let rest ← dropBytes i source
      if !separator.isEmpty && n.isOutside && separator.isPrefixOf rest then
        let piece ← slice? source start i
        let stop := i + byteWidth separator
        return piece :: (← splitAtOffsets separator source cs (i + c.utf8Size) n stop stop)
      else splitAtOffsets separator source cs (i + c.utf8Size) (n.feed c) start skip

theorem splitAtOffsets_skip {n : Nesting} {i skip : Nat} (h : i + byteWidth as = skip) :
    splitAtOffsets separator source (as ++ bs) i n start skip =
      splitAtOffsets separator source bs skip n start skip := by
  induction as generalizing i
  case nil => rw [←h, List.nil_append, byteWidth, Nat.add_zero]
  case cons c as hi =>
    have := c.utf8Size_pos
    simp only [byteWidth] at h
    rw [List.cons_append, splitAtOffsets, if_pos (by omega), hi (by omega)]

theorem prepend_nil {pieces : List (List Char)} (h : pieces ≠ []) : prepend [] pieces = pieces := by
  cases pieces
  case nil => exact absurd rfl h
  case cons => rfl

theorem prepend_prepend (pieces : List (List Char)) :
    prepend as (prepend bs pieces) = prepend (as ++ bs) pieces := by
  cases pieces <;> simp [prepend]

-- The walk goes on by characters or by separators, so the induction is on what is left of the text.
theorem splitAtOffsets_eq (separator source before mid cs : List Char) (n : Nesting) (skip : Nat)
    (hs : source = before ++ (mid ++ cs)) (hk : skip ≤ byteWidth (before ++ mid)) :
    splitAtOffsets separator source cs (byteWidth (before ++ mid)) n (byteWidth before) skip =
      some (prepend mid (splitFrom separator cs n 0)) := by
  match cs with
  | [] =>
    rw [splitAtOffsets, hs, dropBytes_append]
    rfl
  | c :: cs =>
    have hd : dropBytes (byteWidth (before ++ mid)) source = some (c :: cs) :=
      dropBytes_eq_some_iff.mpr ⟨before ++ mid, by simp [hs], rfl⟩
    rw [splitAtOffsets, if_neg (Nat.not_lt.mpr hk), hd]
    simp only [Option.bind_eq_bind, Option.bind_some]
    split
    case isFalse h =>
      have hw : byteWidth (before ++ mid) + c.utf8Size = byteWidth (before ++ (mid ++ [c])) := by
        simp [byteWidth, Nat.add_assoc]
      have hf : splitFrom separator (c :: cs) n 0 =
          prepend [c] (splitFrom separator cs (n.feed c) 0) := by
        rw [splitFrom, if_neg h]
        cases splitFrom separator cs (n.feed c) 0 <;> rfl
      have hi := splitAtOffsets_eq separator source before (mid ++ [c]) cs (n.feed c) skip
        (by simp [hs]) (by omega)
      rw [hw, hi, hf, prepend_prepend]
    case isTrue h =>
      simp only [Bool.and_eq_true, List.isPrefixOf_iff_prefix] at h
      obtain ⟨⟨hn, ho⟩, bs, hb⟩ := h
      cases separator
      case nil => cases hn
      case cons d separator =>
        rw [List.cons_append, List.cons.injEq] at hb
        obtain ⟨rfl, rfl⟩ := hb
        have hw := byteWidth_append (before ++ mid) (d :: separator)
        have hi := splitAtOffsets_eq (d :: separator) source (before ++ mid ++ d :: separator) []
          bs n _ (by simp [hs]) (Nat.le_refl _)
        rw [prepend_nil (splitFrom_ne_nil 0), List.append_nil, hw] at hi
        have hp := slice?_append before mid (d :: (separator ++ bs))
        have hf : splitFrom (d :: separator) (d :: (separator ++ bs)) n 0 =
            [] :: splitFrom (d :: separator) bs n 0 :=
          splitFrom_separator (List.cons_ne_nil _ _) ho
        rw [←hs] at hp
        rw [hf, hp, Option.bind_some, splitAtOffsets_skip (by simp [byteWidth, Nat.add_assoc]), hi]
        simp [prepend]
termination_by cs.length

theorem splitAtOffsets_eq_splitOutside (separator cs : List Char) :
    splitAtOffsets separator cs cs 0 .outside 0 0 = some (splitOutside separator cs) := by
  have h := splitAtOffsets_eq separator cs [] [] cs .outside 0 rfl (Nat.le_refl _)
  rwa [prepend_nil (splitFrom_ne_nil 0)] at h

end Stencil
