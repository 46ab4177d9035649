import Mathlib.Data.List.Induction
import Stencil.Project.Settings

-- What the templates of a project are called.
namespace Stencil.Settings

variable {s : Settings} {path name extension : String}

-- The extension is the longest one that a path ends in.
structure IsLongest (extensions : List String) (path extension : String) : Prop where
  mem : extension ∈ extensions
  suffix : extension.toList <:+ path.toList
  le : ∀ other ∈ extensions, other.toList <:+ path.toList →
    other.utf8ByteSize ≤ extension.utf8ByteSize

theorem IsLongest.snoc {extensions : List String} {last : String}
    (h : IsLongest extensions path extension)
    (hl : last.toList <:+ path.toList → last.utf8ByteSize ≤ extension.utf8ByteSize) :
    IsLongest (extensions ++ [last]) path extension := by
  refine ⟨List.mem_append_left _ h.mem, h.suffix, fun other hm hs => ?_⟩
  rcases List.mem_append.mp hm with hm | hm
  case inl => exact h.le other hm hs
  case inr => exact List.mem_singleton.mp hm ▸ hl (List.mem_singleton.mp hm ▸ hs)

theorem IsLongest.last {extensions : List String} (hs : extension.toList <:+ path.toList)
    (h : ∀ other ∈ extensions, other.toList <:+ path.toList →
      other.utf8ByteSize ≤ extension.utf8ByteSize) :
    IsLongest (extensions ++ [extension]) path extension := by
  refine ⟨by simp, hs, fun other hm hs => ?_⟩
  rcases List.mem_append.mp hm with hm | hm
  case inl => exact h other hm hs
  case inr => exact List.mem_singleton.mp hm ▸ Nat.le_refl _

theorem extension?_spec (s : Settings) (path : String) :
    match s.extension? path with
    | some extension => IsLongest s.extensions path extension
    | none => ∀ other ∈ s.extensions, ¬other.toList <:+ path.toList := by
  unfold extension?
  generalize s.extensions = extensions
  induction extensions using List.reverseRecOn
  case nil => exact nofun
  case append_singleton extensions last hi =>
    simp only [List.foldl_append, List.foldl_cons, List.foldl_nil, List.isSuffixOf_iff_suffix]
    simp only [List.isSuffixOf_iff_suffix] at hi
    generalize List.foldl _ none extensions = longest at hi ⊢
    by_cases hs : last.toList <:+ path.toList
    case neg =>
      rw [if_neg hs]
      cases longest
      case some => exact hi.snoc fun h => absurd h hs
      case none => exact List.forall_mem_append.mpr ⟨hi, List.forall_mem_singleton.mpr hs⟩
    case pos =>
      rw [if_pos hs]
      cases longest
      case none => exact .last hs fun other hm ho => absurd ho (hi other hm)
      case some l =>
        have hi : IsLongest extensions path l := hi
        by_cases hl : l.utf8ByteSize < last.utf8ByteSize
        case pos =>
          simp only [if_pos hl]
          exact .last hs fun other hm ho => Nat.le_trans (hi.le other hm ho) (Nat.le_of_lt hl)
        case neg =>
          simp only [if_neg hl]
          exact hi.snoc fun _ => Nat.not_lt.mp hl

-- A template is called by its path below the root up to the extension, with slashes only.
structure Calls (s : Settings) (path name : String) (stem : List Char) (extension : String) :
    Prop where
  relative : Path.relative? s.root path = some (.ofList (stem ++ extension.toList))
  longest : IsLongest s.extensions (.ofList (stem ++ extension.toList)) extension
  name_eq : name = .ofList (stem.map fun c => if c = '\\' then '/' else c)

theorem calls_of_templateName? (h : s.templateName? path = some name) :
    ∃ stem extension, s.Calls path name stem extension := by
  unfold templateName? at h
  have ⟨relative, hr, h⟩ := Option.bind_eq_some_iff.mp h
  have ⟨extension, he, h⟩ := Option.bind_eq_some_iff.mp h
  have hl := s.extension?_spec relative
  rw [he] at hl
  have hs := List.suffix_iff_eq_append.mp hl.suffix
  simp only at h
  generalize relative.toList.take _ = stem at h hs
  have hr' : relative = .ofList (stem ++ extension.toList) := by rw [hs, String.ofList_toList]
  split at h
  case h_1 => cases h
  case h_2 =>
    cases h
    exact ⟨stem, extension, hr' ▸ hr, hr' ▸ hl, rfl⟩

end Stencil.Settings
