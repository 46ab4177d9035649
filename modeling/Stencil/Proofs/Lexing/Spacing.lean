import Mathlib.Data.List.Forall2
import Stencil.Proofs.Lexing.Scan

-- Tokens are read one by one, and the blanks between them only keep them apart.
namespace Stencil.Token

-- A run of blanks, which may be empty.
abbrev Gap :=
  { cs : List Char // cs.all isBlank = true }

-- The characters of a token, and the blanks after them.
structure Piece where
  text : List Char
  gap : Gap

-- The text that starts with blanks and goes on with pieces.
def laid (gap : Gap) (ps : List Piece) : List Char :=
  gap.1 ++ ps.flatMap fun p => p.text ++ p.gap.1

-- The offset of each piece, which is the width of what stands before it, and that of the end.
def starts (gap : Gap) (ps : List Piece) : List Nat :=
  (List.range (ps.length + 1)).map fun i => byteWidth (laid gap (ps.take i))

-- The same characters, with other blanks after them. They are not joined to what they were kept
-- apart from.
structure Piece.Respaced (p p' : Piece) : Prop where
  text_eq : p'.text = p.text
  parted : p.gap.1 ≠ [] → p'.gap.1 ≠ []

variable {c : Char} {k : Kind} {cs : List Char} {ks : List Kind} {gap gap' : Gap} {p : Piece}
  {ps ps' : List Piece}

theorem laid_cons (gap : Gap) (p : Piece) (ps : List Piece) :
    laid gap (p :: ps) = gap.1 ++ (p.text ++ laid p.gap ps) := by
  simp [laid]

@[simp]
theorem starts_nil (gap : Gap) : starts gap [] = [byteWidth gap.1] := by
  simp [starts, laid]

@[simp]
theorem starts_cons (gap : Gap) (p : Piece) (ps : List Piece) :
    starts gap (p :: ps) =
      byteWidth gap.1 :: (starts p.gap ps).map (byteWidth gap.1 + byteWidth p.text + ·) := by
  simp only [starts, List.length_cons]
  rw [List.range_succ_eq_map]
  simp [laid, byteWidth, Function.comp_def, Nat.add_assoc]

-- Pieces that are the tokens `ks`.
inductive Tiles : List Piece → List Kind → Prop
  | nil : Tiles [] []
  | cons {c as gap ps k ks} :
    isBlank c = false → Extent c k as (laid gap ps) → Tiles ps ks →
    Tiles (⟨c :: as, gap⟩ :: ps) (k :: ks)

theorem Lexed.tiles (h : Lexed cs ks) : ∃ gap ps, cs = laid gap ps ∧ Tiles ps ks := by
  induction h
  case nil => exact ⟨⟨[], rfl⟩, [], rfl, .nil⟩
  case blank c cs ks hc _ hi =>
    have ⟨gap, ps, ht, h⟩ := hi
    exact ⟨⟨c :: gap.1, by simpa [hc] using gap.2⟩, ps, by simp [ht, laid], h⟩
  case token c k as bs ks hc he _ hi =>
    have ⟨gap, ps, ht, h⟩ := hi
    subst ht
    exact ⟨⟨[], rfl⟩, ⟨c :: as, gap⟩ :: ps, by simp [laid], .cons hc he h⟩

theorem follows_laid (h : Tiles ps ks) (hr : List.Forall₂ Piece.Respaced ps ps')
    (hg : gap.1 ≠ [] → gap'.1 ≠ []) : Follows (laid gap ps) (laid gap' ps') := by
  have ⟨bs', hb'⟩ := gap'
  cases bs'
  case cons b bs' =>
    intro c hc
    simp only [List.all_cons, Bool.and_eq_true] at hb'
    cases hc
    exact .inl hb'.1
  case nil =>
    have hn : gap.1 = [] := by simpa using hg
    cases hr
    case nil => exact fun _ hc => nomatch hc
    case cons p p' ps ps' hp _ =>
      cases h
      case cons =>
        intro c hc
        simp only [laid_cons, hn, hp.text_eq] at hc ⊢
        exact .inr hc

-- Other blanks do not make other tokens, since none of them becomes part of one and none that
-- keeps two tokens apart goes missing.
theorem Tiles.respaced (h : Tiles ps ks) (hr : List.Forall₂ Piece.Respaced ps ps') :
    Tiles ps' ks := by
  induction h generalizing ps'
  case nil =>
    cases hr
    exact .nil
  case cons gap ps k ks hc he h hi =>
    cases hr
    case cons p' ps' hp hr =>
      have ⟨text, gap'⟩ := p'
      cases hp.text_eq
      exact .cons hc (he.follows (follows_laid h hr hp.parted)) (hi hr)

theorem scanFrom_gap (gap : Gap) (cs : List Char) (offset : Nat) :
    scanFrom (gap.1 ++ cs) 0 offset = scanFrom cs 0 (offset + byteWidth gap.1) := by
  have ⟨bs, hb⟩ := gap
  induction bs generalizing offset
  case nil => rfl
  case cons b bs hi =>
    simp only [List.all_cons, Bool.and_eq_true] at hb
    simp only [List.cons_append, scanFrom, hb.1, if_true, byteWidth, ←Nat.add_assoc]
    exact hi _ hb.2

theorem scanFrom_skip (as cs : List Char) (offset : Nat) :
    scanFrom (as ++ cs) as.length offset = scanFrom cs 0 (offset + byteWidth as) := by
  induction as generalizing offset
  case nil => rfl
  case cons a as hi =>
    simp only [List.cons_append, List.length_cons, scanFrom, byteWidth, ←Nat.add_assoc]
    exact hi _

theorem Tiles.scanFrom_laid (h : Tiles ps ks) (gap : Gap) (offset : Nat) :
    ∃ ts, scanFrom (laid gap ps) 0 offset = .ok ts ∧ ts.map Token.kind = ks ∧
      ts.map Token.offset ++ [offset + byteWidth (laid gap ps)] =
        (starts gap ps).map (offset + ·) := by
  induction h generalizing gap offset
  case nil =>
    refine ⟨[], ?_, rfl, by simp [laid]⟩
    rw [laid, List.flatMap_nil, scanFrom_gap, scanFrom]
  case cons c as gap' ps k ks hc he h hi =>
    obtain ⟨ts, hs, hk, ho⟩ := hi gap' (offset + byteWidth gap.1 + byteWidth (c :: as))
    refine ⟨⟨k, offset + byteWidth gap.1⟩ :: ts, ?_, by simp [hk], ?_⟩
    · rw [laid_cons, scanFrom_gap, List.cons_append, scanFrom]
      simp only [hc, Bool.false_eq_true, if_false, he.stable _ _ (.refl _), scanFrom_skip]
      rw [Nat.add_assoc _ c.utf8Size]
      simp only [byteWidth] at hs
      rw [hs]
    · rw [laid_cons, byteWidth_append, byteWidth_append, starts_cons]
      simp only [List.map_cons, List.map_map, Function.comp_def, ←Nat.add_assoc]
      exact congrArg (_ :: ·) ho

theorem Extent.marks_eq {as bs : List Char} (hc : isBlank c = false) (h : Extent c k as bs) :
    marks (c :: as) = .ok [⟨some k, 0⟩, ⟨none, byteWidth (c :: as)⟩] := by
  have hr : read 0 c as = .ok (k, as.length) := by simpa using h.stable 0 [] nofun
  have hs := scanFrom_skip as [] c.utf8Size
  rw [List.append_nil] at hs
  simp [marks, scan, scanFrom, hc, hr, hs]

theorem Tiles.marks_text (h : Tiles ps ks) :
    List.Forall₂ (fun p k => marks p.text = .ok [⟨k, 0⟩, ⟨none, byteWidth p.text⟩]) ps
      (ks.map some) := by
  induction h
  case nil => exact .nil
  case cons hc he _ hi => exact .cons (he.marks_eq hc) hi

theorem byteWidth_pos (c : Char) (cs : List Char) : 0 < byteWidth (c :: cs) :=
  Nat.add_pos_left c.utf8Size_pos _

theorem Tiles.pairwise_starts (h : Tiles ps ks) (gap : Gap) :
    (starts gap ps).Pairwise (· < ·) := by
  induction h generalizing gap
  case nil => simp
  case cons c as gap' ps k ks _ _ _ hi =>
    rw [starts_cons, List.pairwise_cons, List.pairwise_map]
    refine ⟨fun n hn => ?_, (hi gap').imp (Nat.add_lt_add_left · _)⟩
    have ⟨m, _, hm⟩ := List.mem_map.mp hn
    have hw := byteWidth_pos c as
    simp only at hm
    omega

-- The marks of a text: its tokens and, at its width, its end.
theorem Tiles.marks_laid (h : Tiles ps ks) (gap : Gap) :
    ∃ ms, marks (laid gap ps) = .ok (ms ++ [⟨none, byteWidth (laid gap ps)⟩]) ∧
      ms.map Mark.kind = ks.map some ∧
      (ms ++ [⟨none, byteWidth (laid gap ps)⟩]).map Mark.offset = starts gap ps := by
  have ⟨ts, hs, hk, ho⟩ := h.scanFrom_laid gap 0
  have hm : marks (laid gap ps) =
      .ok (ts.map (fun t => ⟨some t.kind, t.offset⟩) ++ [⟨none, byteWidth (laid gap ps)⟩]) := by
    simp only [marks, scan, hs]
  refine ⟨_, hm, by simp [←hk], ?_⟩
  simpa [Function.comp_def] using ho

theorem marks_eq_ok {ms : List Mark} (h : marks cs = .ok ms) :
    ∃ gap ps ks, cs = laid gap ps ∧ Tiles ps ks := by
  unfold marks at h
  split at h
  case h_1 => cases h
  case h_2 ts hs =>
    have ⟨gap, ps, hl, ht⟩ := Lexed.tiles (scan_eq_ok_iff.mp ⟨ts, hs, rfl⟩)
    exact ⟨gap, ps, _, hl, ht⟩

-- A text that can be read is made of tokens and blanks. Each token starts where the text before it
-- ends, and is the same token on its own. With other blanks the tokens are in other places.
theorem marks_local {ms : List Mark} (h : marks cs = .ok ms) :
    ∃ gap ps,
      cs = laid gap ps ∧ ms.map Mark.offset = starts gap ps ∧
      (ms.map Mark.offset).Pairwise (· < ·) ∧ ms.getLast? = some ⟨none, byteWidth cs⟩ ∧
      List.Forall₂ (fun p m => marks p.text = .ok [⟨m.kind, 0⟩, ⟨none, byteWidth p.text⟩])
        ps ms.dropLast ∧
      ∀ gap' ps', List.Forall₂ Piece.Respaced ps ps' →
        ∃ ms', marks (laid gap' ps') = .ok ms' ∧ ms'.map Mark.kind = ms.map Mark.kind ∧
          ms'.map Mark.offset = starts gap' ps' := by
  have ⟨gap, ps, ks, hl, ht⟩ := marks_eq_ok h
  have ⟨ns, hm, hk, ho⟩ := ht.marks_laid gap
  rw [←hl] at hm ho
  cases h.symm.trans hm
  refine ⟨gap, ps, hl, ho, ho ▸ ht.pairwise_starts gap, by simp, ?_, fun gap' ps' hr => ?_⟩
  · have hf := ht.marks_text
    rw [←hk, List.forall₂_map_right_iff] at hf
    rwa [List.dropLast_concat]
  · have ⟨ns', hm', hk', ho'⟩ := (ht.respaced hr).marks_laid gap'
    exact ⟨_, hm', by simp [hk, hk'], ho'⟩

theorem marks_local_call :
    ∃ ms gap ps,
      marks "f( .5 , 'a\\'b')".toList = .ok ms ∧ "f( .5 , 'a\\'b')".toList = laid gap ps ∧
      starts gap ps = [0, 1, 3, 6, 8, 14, 15] ∧
      ∀ gap' ps', List.Forall₂ Piece.Respaced ps ps' →
        ∃ ms', marks (laid gap' ps') = .ok ms' ∧ ms'.map Mark.kind = ms.map Mark.kind ∧
          ms'.map Mark.offset = starts gap' ps' := by
  have ⟨ms, hm, ho⟩ : ∃ ms, marks "f( .5 , 'a\\'b')".toList = .ok ms ∧
      ms.map Mark.offset = [0, 1, 3, 6, 8, 14, 15] := ⟨_, rfl, rfl⟩
  have ⟨gap, ps, hl, hs, _, _, _, hr⟩ := marks_local hm
  exact ⟨ms, gap, ps, hm, hl, hs ▸ ho, hr⟩

end Stencil.Token
