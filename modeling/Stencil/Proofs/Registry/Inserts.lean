import Mathlib.Data.List.Perm.Subperm
import Stencil.Proofs.Registry.History

-- Registries that were only added to.
namespace Stencil.Registry

variable {α : Type} {entries : List (String × α)} {name : String} {x : α}

def inserts (entries : List (String × α)) : List (Change α) :=
  entries.map fun (name, x) => .insert name x

theorem live_inserts :
    Live (inserts entries) name x ↔
      ∃ before later, entries = before ++ (name, x) :: later ∧ name ∉ later.map (·.1) := by
  have hl (later : List (String × α)) :
      (∀ c ∈ inserts later, ¬c.Affects name) ↔ name ∉ later.map (·.1) := by
    rw [inserts, List.forall_mem_map]
    simp only [Change.Affects, List.mem_map, not_exists, not_and]
  constructor
  case mp =>
    rintro ⟨before, later, he, ha⟩
    obtain ⟨before, rest, hb, _, hr⟩ := List.map_eq_append_iff.mp he
    obtain ⟨entry, later, hc, hi, hm⟩ := List.map_eq_cons_iff.mp hr
    cases hi
    exact ⟨before, later, hc ▸ hb, (hl later).mp (by rwa [inserts, hm])⟩
  case mpr =>
    rintro ⟨before, later, rfl, hn⟩
    exact ⟨inserts before, inserts later, by simp [inserts], (hl later).mpr hn⟩

theorem live_inserts_of_nodup (h : (entries.map (·.1)).Nodup) :
    Live (inserts entries) name x ↔ (name, x) ∈ entries := by
  rw [live_inserts]
  constructor
  case mp =>
    rintro ⟨before, later, rfl, _⟩
    simp
  case mpr =>
    intro hm
    have ⟨before, later, he⟩ := List.append_of_mem hm
    subst he
    rw [List.map_append, List.map_cons, List.nodup_append] at h
    exact ⟨before, later, rfl, (List.nodup_cons.mp h.2.1).1⟩

theorem get?_after_perm {entries' : List (String × α)} (hp : entries.Perm entries')
    (h : (entries.map (·.1)).Nodup) :
    (after (inserts entries)).get? name = (after (inserts entries')).get? name := by
  have h' := (hp.map (·.1)).nodup_iff.mp h
  ext x
  rw [get?_after, get?_after, live_inserts_of_nodup h, live_inserts_of_nodup h', hp.mem_iff]

theorem mem_names_after_inserts :
    name ∈ (after (inserts entries)).names ↔ name ∈ entries.map (·.1) := by
  rw [mem_names_after]
  induction entries using List.reverseRecOn
  case nil => simp [live_inserts]
  case append_singleton entries entry hi =>
    have hc : inserts (entries ++ [entry]) = inserts entries ++ [.insert entry.1 entry.2] := by
      simp [inserts]
    simp only [hc, live_concat, exists_or, exists_and_left, hi, Change.Affects, Change.insert.injEq]
    by_cases h : entry.1 = name
    case pos => simp [h]
    case neg => simp [h, Ne.symm h]

-- As many are registered as there were to register, if no two have the same name.
theorem size_after_inserts (entries : List (String × α)) :
    (after (inserts entries)).size = entries.length ↔ (entries.map (·.1)).Nodup := by
  have hs : (after (inserts entries)).size = (after (inserts entries)).names.length := by
    simp [size, names]
  have hl : entries.length = (entries.map (·.1)).length := by simp
  rw [hs, hl]
  have hn : (after (inserts entries)).names.Nodup := pairwise_names_after.imp fun h => ne_of_lt h
  constructor
  case mp =>
    intro he
    have hp := (hn.subperm fun _ => mem_names_after_inserts.mp).perm_of_length_le he.ge
    exact hp.nodup_iff.mp hn
  case mpr =>
    intro h
    exact ((List.perm_ext_iff_of_nodup hn h).mpr fun _ => mem_names_after_inserts).length_eq

end Stencil.Registry
