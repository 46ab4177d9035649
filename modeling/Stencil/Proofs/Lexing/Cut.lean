import Mathlib.Data.List.Nodup
import Stencil.Proofs.Lexing.Spacing

-- A text that is cut before one of its tokens is made of the tokens before it.
namespace Stencil.Token

variable {as bs : List Char} {ks ks' : List Kind} {gap : Gap} {ps : List Piece}

-- A blank keeps the last token of a text from taking in what follows.
theorem Lexed.append_blank (h : Lexed as ks) (h' : Lexed (' ' :: bs) ks') :
    Lexed (as ++ ' ' :: bs) (ks ++ ks') := by
  induction h
  case nil => exact h'
  case blank hc _ hi => exact .blank hc hi
  case token c k as bs' ks hc he _ hi =>
    have hf : Follows [] (' ' :: bs) := by
      intro _ hb
      cases hb
      exact .inl rfl
    have hf : Follows (bs' ++ []) (bs' ++ ' ' :: bs) := hf.append
    rw [List.append_nil] at hf
    simpa using Lexed.token hc (he.follows hf) hi

theorem Tiles.lexed (h : Tiles ps ks) (gap : Gap) : Lexed (laid gap ps) ks :=
  have ⟨ts, hs, hk, _⟩ := h.scanFrom_laid gap 0
  scan_eq_ok_iff.mp ⟨ts, hs, hk⟩

theorem laid_take (gap : Gap) (ps : List Piece) (n : Nat) :
    laid gap (ps.take n) <+: laid gap ps := by
  refine ⟨(ps.drop n).flatMap fun p => p.text ++ p.gap.1, ?_⟩
  rw [laid, laid, List.append_assoc, ←List.flatMap_append, List.take_append_drop]

theorem Tiles.take (h : Tiles ps ks) (n : Nat) : Tiles (ps.take n) (ks.take n) := by
  induction h generalizing n
  case nil => simpa using Tiles.nil
  case cons gap ps _ _ hc he _ hi =>
    cases n
    case zero => exact .nil
    case succ n =>
      have ⟨bs, hb⟩ := laid_take gap ps n
      exact .cons hc (he.follows (hb ▸ .of_append _ bs)) (hi n)

theorem Tiles.marks_eq {ms : List Mark} (h : Tiles ps ks) (hm : marks (laid gap ps) = .ok ms) :
    ms.map Mark.kind = ks.map some ++ [none] ∧ ms.map Mark.offset = starts gap ps := by
  have ⟨_, hm', hk, ho⟩ := h.marks_laid gap
  cases hm.symm.trans hm'
  exact ⟨by simp [hk], ho⟩

theorem Tiles.eq_of_offset_eq {ms : List Mark} {m m' : Mark} (h : Tiles ps ks)
    (hm : marks (laid gap ps) = .ok ms) (h₁ : m ∈ ms) (h₂ : m' ∈ ms) (ho : m.offset = m'.offset) :
    m = m' := by
  have hp := h.pairwise_starts gap
  rw [←(h.marks_eq hm).2] at hp
  exact List.inj_on_of_nodup_map (hp.imp Nat.ne_of_lt) h₁ h₂ ho

-- The marks before one of them are the tokens of the text before it.
theorem Tiles.marks_split {before after : List Mark} {m : Mark} (h : Tiles ps ks)
    (hm : marks (laid gap ps) = .ok (before ++ m :: after)) :
    before.filterMap Mark.kind = ks.take before.length ∧
      m.offset = byteWidth (laid gap (ps.take before.length)) := by
  obtain ⟨hk, ho⟩ := h.marks_eq hm
  constructor
  case left =>
    have hl : before.length ≤ (ks.map some).length := by
      have hl := congrArg List.length hk
      simp only [List.length_map, List.length_append, List.length_cons, List.length_nil] at hl ⊢
      omega
    have hb : before.map Mark.kind = (ks.take before.length).map some := by
      have hb := congrArg (List.take before.length) hk
      rwa [List.map_append, List.take_left' (List.length_map _), List.take_append_of_le_length hl,
        ←List.map_take] at hb
    calc before.filterMap Mark.kind
      _ = (before.map Mark.kind).filterMap id := by rw [List.filterMap_map, Function.id_comp]
      _ = ks.take before.length := by rw [hb]; simp
  case right =>
    have ho := congrArg (·[before.length]?) ho
    cases hr : (List.range (ps.length + 1))[before.length]? <;> simp [starts, hr] at ho
    case some n =>
      obtain ⟨_, hn⟩ := List.getElem?_eq_some_iff.mp hr
      simpa [←hn] using ho

end Stencil.Token
