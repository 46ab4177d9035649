import Mathlib.Data.List.Induction
import Mathlib.Data.String.Basic
import Stencil.Render.Registry

-- What a registry holds, told by the changes that were made to it.
namespace Stencil.Registry

variable {α : Type} {r : Registry α} {entries : List (String × α)} {name name' : String} {x : α}

theorem get?_cons (entry : String × α) :
    get? ⟨entry :: entries⟩ name =
      if entry.1 = name then some entry.2 else get? ⟨entries⟩ name := by
  by_cases h : entry.1 = name <;> simp [get?, h]

theorem get?_insertIn :
    get? ⟨insertIn name x entries⟩ name' =
      if name = name' then some x else get? ⟨entries⟩ name' := by
  induction entries
  case nil => exact get?_cons _
  case cons entry entries hi =>
    simp only [insertIn]
    split
    case isTrue => exact get?_cons _
    case isFalse =>
      split
      case isTrue he =>
        rw [get?_cons, get?_cons, he]
        split <;> rfl
      case isFalse he =>
        rw [get?_cons, get?_cons, hi]
        split
        case isTrue h => rw [if_neg fun hn => he (hn.trans h.symm)]
        case isFalse => rfl

theorem get?_insert :
    (r.insert name x).get? name' = if name = name' then some x else r.get? name' :=
  get?_insertIn

theorem get?_erase : (r.erase name).get? name' = if name = name' then none else r.get? name' := by
  have ⟨entries⟩ := r
  unfold erase
  induction entries
  case nil => simp [get?]
  case cons entry entries hi =>
    by_cases h : entry.1 = name
    case pos =>
      rw [List.filter_cons_of_neg (by simp [h]), hi, get?_cons, h]
      split <;> rfl
    case neg =>
      rw [List.filter_cons_of_pos (by simp [h]), get?_cons, get?_cons, hi]
      by_cases hn : name = name'
      case pos => simp [hn ▸ h, hn]
      case neg => simp [hn]

theorem mem_names_iff : name ∈ r.names ↔ ∃ x, r.get? name = some x := by
  have ⟨entries⟩ := r
  unfold names
  induction entries
  case nil => simp [get?]
  case cons entry entries hi =>
    have hi : name ∈ entries.map (·.1) ↔ _ := hi
    rw [List.map_cons, List.mem_cons, hi]
    by_cases h : entry.1 = name
    case pos => simp [get?_cons, h]
    case neg => simp [get?_cons, h, Ne.symm h]

theorem pairwise_insertIn (h : (entries.map (·.1)).Pairwise (· < ·)) :
    ((insertIn name x entries).map (·.1)).Pairwise (· < ·) := by
  induction entries
  case nil => simp [insertIn]
  case cons entry entries hi =>
    have ⟨he, hs⟩ := List.pairwise_cons.mp h
    simp only [insertIn]
    split
    case isTrue hl =>
      refine List.pairwise_cons.mpr ⟨fun n hn => ?_, h⟩
      cases hn
      case head => exact hl
      case tail hn => exact hl.trans (he n hn)
    case isFalse hl =>
      split
      case isTrue heq => exact List.pairwise_cons.mpr ⟨fun n hn => heq ▸ he n hn, hs⟩
      case isFalse hne =>
        refine List.pairwise_cons.mpr ⟨fun n hn => ?_, hi hs⟩
        -- What is new behind the entry has the name that comes after it.
        have ⟨x', hx'⟩ := mem_names_iff.mp (show n ∈ names ⟨insertIn name x entries⟩ from hn)
        rw [get?_insertIn] at hx'
        split at hx'
        case isTrue hn => exact hn ▸ lt_of_le_of_ne (not_lt.mp hl) (Ne.symm hne)
        case isFalse => exact he n (mem_names_iff.mpr ⟨x', hx'⟩)

inductive Change (α : Type)
  | insert (name : String) (x : α)
  | erase (name : String)
  | clear

namespace Change

def apply (r : Registry α) : Change α → Registry α
  | insert name x => r.insert name x
  | erase name => r.erase name
  | clear => .empty

-- Whether what is registered under a name before a change does not count after it.
def Affects (name : String) : Change α → Prop
  | insert n _ | erase n => n = name
  | clear => True

end Change

-- A registry after changes, the latest of which comes last.
def after (changes : List (Change α)) : Registry α :=
  changes.foldl Change.apply .empty

-- What is registered under a name by a change, and neither replaced nor removed by a later one.
def Live (changes : List (Change α)) (name : String) (x : α) : Prop :=
  ∃ before later, changes = before ++ .insert name x :: later ∧ ∀ c ∈ later, ¬c.Affects name

variable {changes : List (Change α)} {c : Change α}

theorem after_concat : after (changes ++ [c]) = c.apply (after changes) :=
  List.foldl_append

theorem live_concat :
    Live (changes ++ [c]) name x ↔ c = .insert name x ∨ ¬c.Affects name ∧ Live changes name x := by
  constructor
  case mp =>
    rintro ⟨before, later, he, hl⟩
    rcases List.eq_nil_or_concat later with rfl | ⟨later, c', rfl⟩
    case inl =>
      have ⟨_, hc⟩ := List.append_inj' he rfl
      exact .inl (List.singleton_inj.mp hc)
    case inr =>
      have ⟨hb, hc⟩ : changes = before ++ .insert name x :: later ∧ [c] = [c'] :=
        List.append_inj' (by simpa using he) rfl
      cases hc
      exact .inr ⟨hl c (by simp), before, later, hb, fun c hm => hl c (by simp [hm])⟩
  case mpr =>
    rintro (rfl | ⟨hc, before, later, rfl, hl⟩)
    case inl => exact ⟨changes, [], rfl, nofun⟩
    case inr =>
      refine ⟨before, later ++ [c], by simp, fun c' hm => ?_⟩
      rcases List.mem_append.mp hm with hm | hm
      · exact hl c' hm
      · exact List.mem_singleton.mp hm ▸ hc

theorem get?_after : (after changes).get? name = some x ↔ Live changes name x := by
  induction changes using List.reverseRecOn
  case nil => simp [after, empty, get?, Live]
  case append_singleton changes c hi =>
    rw [after_concat, live_concat]
    cases c
    case insert n y =>
      simp only [Change.apply, get?_insert, Change.Affects, Change.insert.injEq]
      split
      case isTrue h => simp [h]
      case isFalse h => simp [h, hi]
    case erase n =>
      simp only [Change.apply, get?_erase, Change.Affects, reduceCtorEq, false_or]
      split
      case isTrue h => simp [h]
      case isFalse h => simp [h, hi]
    case clear => simp [Change.apply, Change.Affects, empty, get?]

theorem get?_after_eq_none : (after changes).get? name = none ↔ ¬∃ x, Live changes name x := by
  simp only [Option.eq_none_iff_forall_ne_some, ne_eq, get?_after, not_exists]

theorem pairwise_names_after : (after changes).names.Pairwise (· < ·) := by
  induction changes using List.reverseRecOn
  case nil => exact .nil
  case append_singleton changes c hi =>
    rw [after_concat]
    cases c
    case insert => exact pairwise_insertIn hi
    case erase => exact hi.sublist (List.filter_sublist.map _)
    case clear => exact .nil

theorem mem_names_after : name ∈ (after changes).names ↔ ∃ x, Live changes name x := by
  simp only [mem_names_iff, get?_after]

-- What a selector stands for: what is live under the selector itself, or else under what follows a
-- number sign at its start.
def Selects (changes : List (Change α)) (selector : String) (x : α) : Prop :=
  Live changes selector x ∨
    (¬∃ y, Live changes selector y) ∧ ∃ name, selector = "#" ++ name ∧ Live changes name x

theorem select?_after {selector : String} :
    (after changes).select? selector = some x ↔ Selects changes selector x := by
  simp only [select?, Option.or_eq_some_iff, get?_after, get?_after_eq_none, Selects]
  refine or_congr_right (and_congr_right fun _ => ?_)
  split
  case h_1 cs hs =>
    rw [get?_after]
    constructor
    case mp => exact fun h => ⟨_, String.toList_injective (by simp [hs]), h⟩
    case mpr =>
      rintro ⟨name, rfl, h⟩
      have hs : cs = name.toList := by simpa using hs.symm
      rwa [hs, String.ofList_toList]
  case h_2 hs =>
    simp only [reduceCtorEq, false_iff, not_exists, not_and]
    rintro name rfl
    exact absurd (by simp) (hs name.toList)

theorem resolve_after_eq_ok {selector : Value} :
    (after changes).resolve selector = .ok x ↔ Selects changes selector.text x := by
  rw [←select?_after, resolve]
  split
  case h_1 h => simp [h]
  case h_2 h => simp [h]

theorem resolve_after_eq_error {selector : Value} {e : RenderError} :
    (after changes).resolve selector = .error e ↔
      e = .unknownTemplate selector.text ∧ ¬∃ x, Selects changes selector.text x := by
  simp only [←select?_after, resolve]
  split
  case h_1 h => simp [h]
  case h_2 h => simp [h, eq_comm]

end Stencil.Registry
