import Mathlib.Data.List.Destutter
import Stencil.Proofs.Compiling.Occurrence
import Stencil.Proofs.Printing.Hygiene

-- Which temporaries the source of a template declares, and which it uses.
namespace Stencil
namespace Temp

variable {t u : Temp} {ts us : List Temp}

-- By depth, and those of one depth values first.
def Before (t u : Temp) : Prop :=
  t.depth < u.depth ∨ t.depth = u.depth ∧ t.kind = .value ∧ u.kind = .buffer

theorem rank_lt_iff : t.rank < u.rank ↔ t.Before u := by
  obtain ⟨k, d⟩ := t
  obtain ⟨k', d'⟩ := u
  cases k <;> cases k' <;> simp [rank, Before] <;> omega

theorem eq_of_rank_eq (h : t.rank = u.rank) : t = u := by
  obtain ⟨k, d⟩ := t
  obtain ⟨k', d'⟩ := u
  cases k <;> cases k' <;> simp [rank] at h ⊢ <;> omega

theorem mem_insert : u ∈ t.insert us ↔ u = t ∨ u ∈ us := by
  induction us
  case nil => simp [insert]
  case cons v us hi =>
    unfold insert
    split
    case isTrue => exact List.mem_cons
    case isFalse =>
      split
      case isTrue h =>
        rw [eq_of_rank_eq h, List.mem_cons]
        exact ⟨.inr, fun h => h.elim .inl id⟩
      case isFalse => rw [List.mem_cons, List.mem_cons, hi, or_left_comm]

theorem pairwise_insert (h : us.Pairwise Before) : (t.insert us).Pairwise Before := by
  induction us
  case nil => exact List.pairwise_singleton ..
  case cons v us hi =>
    have hv := List.pairwise_cons.mp h
    unfold insert
    split
    case isTrue ht =>
      refine List.pairwise_cons.mpr ⟨fun u hu => ?_, h⟩
      cases hu
      case head => exact rank_lt_iff.mp ht
      case tail hu => exact rank_lt_iff.mp (Nat.lt_trans ht (rank_lt_iff.mpr (hv.1 u hu)))
    case isFalse ht =>
      split
      case isTrue => exact h
      case isFalse hn =>
        refine List.pairwise_cons.mpr ⟨fun u hu => ?_, hi hv.2⟩
        cases mem_insert.mp hu
        case inl hu =>
          subst hu
          exact rank_lt_iff.mp (by omega)
        case inr hu => exact hv.1 u hu

theorem mem_foldr_insert : t ∈ ts.foldr insert [] ↔ t ∈ ts := by
  induction ts
  case nil => rfl
  case cons u ts hi => rw [List.foldr_cons, mem_insert, hi, List.mem_cons]

theorem pairwise_foldr_insert (ts : List Temp) : (ts.foldr insert []).Pairwise Before := by
  induction ts
  case nil => exact .nil
  case cons u ts hi => exact pairwise_insert hi

def Kind.number : Kind → Nat
  | .value => 0
  | .buffer => 1

-- The order to sort by.
def leads (t u : Temp) : Bool :=
  t.depth < u.depth || t.depth == u.depth && t.kind.number ≤ u.kind.number

theorem leads_iff : t.leads u = true ↔ t.rank ≤ u.rank := by
  obtain ⟨k, d⟩ := t
  obtain ⟨k', d'⟩ := u
  cases k <;> cases k' <;> simp [leads, rank, Kind.number] <;> omega

theorem pairwise_mergeSort (ts : List Temp) :
    (ts.mergeSort leads).Pairwise fun t u => t.rank ≤ u.rank := by
  refine (List.pairwise_mergeSort ?_ ?_ ts).imp leads_iff.mp
  case refine_1 =>
    intro t u v
    simp only [leads_iff]
    exact Nat.le_trans
  case refine_2 =>
    intro t u
    rw [Bool.or_eq_true, leads_iff, leads_iff]
    exact Nat.le_total ..

-- To insert one by one is to sort first and then to drop what is the same as its neighbour. Both
-- lists ascend, and have the same members.
theorem foldr_insert_eq (ts : List Temp) :
    ts.foldr insert [] = (ts.mergeSort leads).destutter (· ≠ ·) := by
  have ha {t u : Temp} (h : t.rank ≤ u.rank) (h' : u.rank ≤ t.rank) : t = u :=
    eq_of_rank_eq (Nat.le_antisymm h h')
  have : Std.Antisymm fun t u : Temp => t.rank ≤ u.rank := ⟨fun _ _ => ha⟩
  have hs := pairwise_mergeSort ts
  have hi := pairwise_foldr_insert ts
  have hn : (ts.foldr insert []).Nodup := by
    refine hi.imp fun ht he => ?_
    rw [he] at ht
    exact Nat.lt_irrefl _ (rank_lt_iff.mpr ht)
  rw [hs.destutter_eq_dedup]
  refine List.Perm.eq_of_pairwise (fun _ _ _ _ => ha)
    (hi.imp fun h => Nat.le_of_lt (rank_lt_iff.mpr h)) (hs.sublist (List.dedup_sublist _)) ?_
  refine (List.perm_ext_iff_of_nodup hn (List.nodup_dedup _)).mpr fun t => ?_
  rw [mem_foldr_insert, List.mem_dedup, (List.mergeSort_perm ts leads).mem_iff]

def letter : Kind → Char
  | .value => 'v'
  | .buffer => 'a'

theorem letter_injective {k k' : Kind} (h : letter k = letter k') : k = k' := by
  cases k <;> cases k' <;> trivial

theorem toList_name (t : Temp) :
    t.name.toList = '$' :: letter t.kind :: Nat.toDigits 10 t.depth := by
  unfold name letter
  cases t.kind <;> simp

theorem name_injective (h : t.name = u.name) : t = u := by
  have h := congrArg String.toList h
  simp only [toList_name, List.cons.injEq, true_and] at h
  have hd : t.depth = u.depth := by
    rw [←@Nat.ofDigitChars_ten_toDigits t.depth, h.2, Nat.ofDigitChars_ten_toDigits]
  have hk : t.kind = u.kind := letter_injective h.1
  obtain ⟨k, d⟩ := t
  cases hk
  cases hd
  rfl

theorem name_mem_map : t.name ∈ ts.map name ↔ t ∈ ts := by
  constructor
  case mp =>
    intro h
    obtain ⟨u, hu, hn⟩ := List.mem_map.mp h
    exact name_injective hn ▸ hu
  case mpr => exact List.mem_map_of_mem

theorem nodup_map_name (h : ts.Pairwise Before) : (ts.map name).Nodup := by
  refine List.pairwise_map.mpr (h.imp fun ht hn => ?_)
  have hr := rank_lt_iff.mpr ht
  rw [name_injective hn] at hr
  exact Nat.lt_irrefl _ hr

theorem name_ne {x : String} (hv : x.toList[1]? ≠ some 'v') (ha : x.toList[1]? ≠ some 'a')
    (t : Temp) : t.name ≠ x := by
  rintro rfl
  rw [toList_name] at hv ha
  obtain ⟨k, d⟩ := t
  cases k <;> contradiction

end Temp

namespace Code

variable {t : Temp} {c n : Code}

theorem mem_temps_iff : t ∈ c.temps ↔ ∃ n ∈ c.nodes, n.temp? = some t := by
  rw [temps, Temp.mem_foldr_insert, List.mem_filterMap]

theorem temps_eq_sorted (c : Code) :
    c.temps = ((c.nodes.filterMap temp?).mergeSort Temp.leads).destutter (· ≠ ·) :=
  Temp.foldr_insert_eq _

theorem temp?_eq_some_iff : n.temp? = some t ↔
    (∃ value, n = .dethunk t value) ∨
    ∃ slot key value container body, n = .each t slot key value container body := by
  cases n <;> simp [temp?]

theorem mem_temps_iff_occurs : t ∈ c.temps ↔
    (∃ value d, (dethunk t value).Occurs d c) ∨
    ∃ slot key value container body d, (each t slot key value container body).Occurs d c := by
  simp only [mem_temps_iff, mem_nodes_iff, temp?_eq_some_iff]
  constructor
  case mp =>
    rintro ⟨n, ⟨d, hn⟩, ⟨value, rfl⟩ | ⟨slot, key, value, container, body, rfl⟩⟩
    · exact .inl ⟨value, d, hn⟩
    · exact .inr ⟨slot, key, value, container, body, d, hn⟩
  case mpr =>
    rintro (⟨value, d, hn⟩ | ⟨slot, key, value, container, body, d, hn⟩)
    · exact ⟨_, ⟨d, hn⟩, .inl ⟨value, rfl⟩⟩
    · exact ⟨_, ⟨d, hn⟩, .inr ⟨slot, key, value, container, body, rfl⟩⟩

-- The other names that are written for nodes differ from those of temporaries in the letter.
theorem name_mem_ownNames : t.name ∈ n.ownNames ↔ n.temp? = some t := by
  have hl : t.name ≠ "$lookup" := t.name_ne (by decide) (by decide)
  have hd : t.name ≠ "$data" := t.name_ne (by decide) (by decide)
  have ho : t.name ≠ "$options" := t.name_ne (by decide) (by decide)
  have he : t.name ≠ "$each" := t.name_ne (by decide) (by decide)
  have ht : t.name ≠ "$tmpl" := t.name_ne (by decide) (by decide)
  have hm : t.name ≠ "$merge" := t.name_ne (by decide) (by decide)
  have hn (u : Temp) : t.name = u.name ↔ u = t :=
    ⟨fun h => (Temp.name_injective h).symm, fun h => congrArg Temp.name h.symm⟩
  cases n <;> simp [ownNames, temp?, *]

end Code

namespace Source

-- The line that declares variables, if there are any.
def declaration : List String → String
  | [] => ""
  | names => "\n  var " ++ ", ".intercalate names ++ ";"

theorem declaration_eq_empty_iff {names : List String} : declaration names = "" ↔ names = [] := by
  cases names
  case nil => simp [declaration]
  case cons => simp [declaration]

end Source

namespace Program

open Source

variable (program : Program) (literal : String → String) (name : Option String) {t : Temp}

-- The source of the body of a program has a temporary in it: what is written before some place
-- there is followed by its name.
def UsesTemp (t : Temp) : Prop :=
  ∃ q rest, (program.place name).Holds literal q ∧ q.piece = .own t.name ∧
    program.source literal name = q.writer.code ++ t.name ++ rest

theorem usesTemp_iff : program.UsesTemp literal name t ↔ t ∈ program.body.temps := by
  rw [Code.mem_temps_iff]
  constructor
  case mp =>
    rintro ⟨q, _, hq, hx, _⟩
    have hw : (program.place name).Within program.body := ⟨List.Subset.refl _, by simp [place]⟩
    have hf := (hw.holds hq).piece
    rw [hx] at hf
    obtain ⟨n, hn, ht⟩ := List.mem_flatMap.mp hf
    exact ⟨n, hn, Code.name_mem_ownNames.mp ht⟩
  case mpr =>
    rintro ⟨n, hn, ht⟩
    have hx : t.name ∈ program.body.allOwnNames :=
      List.mem_flatMap.mpr ⟨n, hn, Code.name_mem_ownNames.mpr ht⟩
    have hp : (program.place name).piece = .node program.body := rfl
    obtain ⟨q, hq, hqx, _⟩ := Place.exists_own literal hp hx
    obtain ⟨rest, hs⟩ := source_eq hq
    rw [hqx] at hs
    exact ⟨q, rest, hq, hqx, hs⟩

theorem code_writer_place :
    (program.place name).writer.code = "function " ++ name.getD "" ++ "($data, $options) \x7b" ++
      declaration (program.body.temps.map Temp.name) ++ "\n  return " := by
  apply String.toList_injective
  unfold place writeTemps
  cases program.body.temps <;>
    simp [Writer.start, Writer.push, Writer.indent, Writer.newline, declaration]

theorem source_eq_append : ∃ body,
    write literal program.body (program.place name).writer =
      (program.place name).writer.push body ∧
    program.source literal name = (program.place name).writer.code ++ body ++ ";\n\x7d\n" := by
  obtain ⟨body, hb⟩ := appends_write literal (program.place name).writer program.body
  refine ⟨body, hb, ?_⟩
  have hl : (program.place name).writer.level = 1 := by
    simp only [place]
    unfold writeTemps
    split <;> rfl
  have hs : program.source literal name =
    (((write literal program.body (program.place name).writer).push ";").dedent.newline.push
      "\x7d").newline.code := rfl
  rw [hs, hb]
  simp [Writer.push, Writer.dedent, Writer.newline, hl, String.append_assoc]

end Program

-- The temporaries of a code ascend, and are those of the nodes in it. The source of a program has a
-- line that declares each of them once, unless there are none, and its body has in it exactly those
-- that are declared.
theorem temps_declared_once (program : Program) (literal : String → String)
    (name : Option String) :
    program.body.temps.Pairwise Temp.Before ∧
    (∀ t, t ∈ program.body.temps ↔
      (∃ value d, (Code.dethunk t value).Occurs d program.body) ∨
      ∃ slot key value container body d,
        (Code.each t slot key value container body).Occurs d program.body) ∧
    ∃ names body,
      program.source literal name = "function " ++ name.getD "" ++ "($data, $options) \x7b" ++
        Source.declaration names ++ "\n  return " ++ body ++ ";\n\x7d\n" ∧
      Source.write literal program.body (program.place name).writer =
        (program.place name).writer.push body ∧
      names = program.body.temps.map Temp.name ∧ names.Nodup ∧
      (∀ t, t.name ∈ names ↔ program.UsesTemp literal name t) ∧
      (Source.declaration names = "" ↔ ∀ t, ¬program.UsesTemp literal name t) := by
  have hp := Temp.pairwise_foldr_insert (program.body.nodes.filterMap Code.temp?)
  obtain ⟨body, hb, hs⟩ := program.source_eq_append literal name
  rw [program.code_writer_place] at hs
  refine ⟨hp, fun t => Code.mem_temps_iff_occurs, _, body, hs, hb, rfl, Temp.nodup_map_name hp,
    fun t => ?_, ?_⟩
  case refine_1 => rw [program.usesTemp_iff, Temp.name_mem_map]
  case refine_2 =>
    simp only [Source.declaration_eq_empty_iff, List.map_eq_nil_iff, program.usesTemp_iff]
    exact List.eq_nil_iff_forall_not_mem

end Stencil
