import Stencil.Fields

namespace Stencil.Fields

variable {α : Type} {fields new : List (String × α)} {name x : String} {v : α}

def keys (fields : List (String × α)) : List String :=
  fields.map (·.1)

@[simp]
theorem keys_nil : keys ([] : List (String × α)) = [] :=
  rfl

@[simp]
theorem keys_cons (field : String × α) : keys (field :: fields) = field.1 :: keys fields :=
  rfl

@[simp]
theorem get?_nil : get? ([] : List (String × α)) x = none :=
  rfl

theorem get?_cons (field : String × α) :
    get? (field :: fields) x = if field.1 = x then some field.2 else get? fields x := by
  by_cases h : field.1 = x
  case pos => simp [get?, h]
  case neg => simp [get?, List.find?_cons_of_neg, h]

theorem get?_append : get? (fields ++ new) x = (get? fields x).or (get? new x) := by
  induction fields
  case nil => rfl
  case cons field _ hi =>
    simp only [List.cons_append, get?_cons, hi]
    split <;> rfl

theorem get?_eq_none_iff : get? fields x = none ↔ x ∉ keys fields := by
  induction fields
  case nil => simp
  case cons field _ hi =>
    by_cases h : field.1 = x
    case pos => simp [get?_cons, h]
    case neg => simp [get?_cons, h, hi, Ne.symm h]

theorem get?_of_mem (hn : (keys fields).Nodup) (h : (x, v) ∈ fields) : get? fields x = some v := by
  induction fields
  case nil => cases h
  case cons field fields hi =>
    obtain ⟨hf, hn⟩ : field.1 ∉ keys fields ∧ (keys fields).Nodup := List.nodup_cons.mp hn
    rw [get?_cons]
    cases h
    case head => rw [if_pos rfl]
    case tail h =>
      have hx : x ∈ keys fields := List.mem_map_of_mem h
      have hf : field.1 ≠ x := fun he => hf (he ▸ hx)
      rw [if_neg hf]
      exact hi hn h

theorem get?_insert :
    get? (insert name v fields) x = if name = x then some v else get? fields x := by
  induction fields
  case nil => simp [insert, get?_cons]
  case cons field fields hi =>
    by_cases h : field.1 = name <;> simp only [insert, h, beq_iff_eq, if_true, if_false, get?_cons]
    case pos => split <;> rfl
    case neg =>
      rw [hi]
      by_cases hx : name = x <;> simp [hx]
      exact fun he => absurd (he.trans hx.symm) h

-- The last of the new values of a name counts.
theorem get?_insertAll :
    get? (insertAll fields new) x = (get? new.reverse x).or (get? fields x) := by
  induction new generalizing fields
  case nil => rfl
  case cons field new hi =>
    have h : insertAll fields (field :: new) = insertAll (insert field.1 field.2 fields) new := rfl
    rw [h, hi, get?_insert, List.reverse_cons, get?_append, get?_cons]
    cases get? new.reverse x <;> simp
    split <;> rfl

theorem keys_insert :
    keys (insert name v fields) =
      if name ∈ keys fields then keys fields else keys fields ++ [name] := by
  induction fields
  case nil => rfl
  case cons field fields hi =>
    by_cases h : field.1 = name
    case pos => simp [insert, h]
    case neg =>
      simp only [insert, h, beq_iff_eq, if_false, keys_cons, hi, List.mem_cons, Ne.symm h, false_or]
      by_cases hk : name ∈ keys fields <;> simp [hk]

-- Names that are there keep their places, and new ones follow in the order in which they come up.
theorem keys_insertAll :
    keys (insertAll fields new) =
      keys fields ++ ((keys new).filter (· ∉ keys fields)).eraseDups := by
  induction new generalizing fields
  case nil => simp [insertAll]
  case cons field new hi =>
    have h : insertAll fields (field :: new) = insertAll (insert field.1 field.2 fields) new := rfl
    rw [h, hi, keys_insert]
    by_cases hk : field.1 ∈ keys fields
    case pos => simp [hk]
    case neg =>
      simp [hk, List.eraseDups_cons, Bool.and_comm]
      rfl

theorem nodup_keys_insert (h : (keys fields).Nodup) : (keys (insert name v fields)).Nodup := by
  rw [keys_insert]
  split
  · exact h
  · exact List.nodup_append.mpr ⟨h, by simp, by grind⟩

theorem nodup_keys_insertAll (h : (keys fields).Nodup) : (keys (insertAll fields new)).Nodup := by
  induction new generalizing fields
  case nil => exact h
  case cons hi => exact hi (nodup_keys_insert h)

theorem nodup_keys_ofList : (keys (ofList new)).Nodup :=
  nodup_keys_insertAll List.nodup_nil

theorem eraseDups_eq_self {names : List String} (h : names.Nodup) : names.eraseDups = names := by
  induction names
  case nil => rfl
  case cons name names hi =>
    have ⟨hn, h⟩ := List.nodup_cons.mp h
    have hf : names.filter (fun x => !x == name) = names := by
      refine List.filter_eq_self.mpr fun x hx => ?_
      have hx : x ≠ name := fun he => hn (he ▸ hx)
      simp [hx]
    rw [List.eraseDups_cons, hf, hi h]

theorem keys_ofList : keys (ofList new) = (keys new).eraseDups := by
  have hf : (keys new).filter (· ∉ keys ([] : List (String × α))) = keys new := by simp
  rw [ofList, keys_insertAll, hf]
  rfl

theorem get?_reverse (h : (keys fields).Nodup) : get? fields.reverse x = get? fields x := by
  induction fields
  case nil => rfl
  case cons field fields hi =>
    have ⟨hf, hn⟩ : field.1 ∉ keys fields ∧ (keys fields).Nodup := List.nodup_cons.mp h
    rw [List.reverse_cons, get?_append, hi hn, get?_cons, get?_cons]
    split
    case isTrue hx => simp [get?_eq_none_iff.mpr (hx ▸ hf)]
    case isFalse => simp

theorem get?_ofList : get? (ofList new) x = get? new.reverse x := by
  simp [ofList, get?_insertAll]

-- Later fields replace earlier ones of their names, and other names stay.
theorem get?_insertAll_ofList :
    get? (insertAll fields (ofList new)) x = (get? new.reverse x).or (get? fields x) := by
  rw [get?_insertAll, get?_reverse nodup_keys_ofList, get?_ofList]

theorem keys_insertAll_ofList :
    keys (insertAll fields (ofList new)) =
      keys fields ++ (keys new).eraseDups.filter (· ∉ keys fields) := by
  have hn : ((keys (ofList new)).filter (· ∉ keys fields)).Nodup := nodup_keys_ofList.filter _
  rw [keys_insertAll, eraseDups_eq_self hn, keys_ofList]

theorem insert_of_not_mem (h : name ∉ keys fields) :
    insert name v fields = fields ++ [(name, v)] := by
  induction fields
  case nil => rfl
  case cons field fields hi =>
    have ⟨hf, h⟩ : name ≠ field.1 ∧ name ∉ keys fields := by simpa using h
    simp [insert, Ne.symm hf, hi h]

theorem insertAll_of_nodup (h : (keys (fields ++ new)).Nodup) :
    insertAll fields new = fields ++ new := by
  induction new generalizing fields
  case nil => simp [insertAll]
  case cons field new hi =>
    have hf : field.1 ∉ keys fields := by
      simp only [keys, List.map_append, List.map_cons, List.nodup_append] at h
      exact fun hm => h.2.2 _ hm _ (List.mem_cons_self ..) rfl
    have hs : insertAll fields (field :: new) = insertAll (insert field.1 field.2 fields) new := rfl
    rw [hs, insert_of_not_mem hf, hi (by simpa using h)]
    simp

theorem ofList_eq_self (h : (keys fields).Nodup) : ofList fields = fields :=
  insertAll_of_nodup h

end Stencil.Fields
