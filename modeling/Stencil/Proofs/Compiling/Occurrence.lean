import Stencil.Proofs.Printing.Layout

-- Which nodes there are in a code, and how many loop bodies are around them.
namespace Stencil
namespace Code

-- A node is in a code, and there inside of the bodies of `d` loops.
inductive Occurs (n : Code) : Nat → Code → Prop
  | self : Occurs n 0 n
  | operand {d c c'} : c' ∈ c.operands → Occurs n d c' → Occurs n d c
  | body {d c c'} : c' ∈ c.loopBody? → Occurs n d c' → Occurs n (d + 1) c

variable {n c : Code} {d e k : Nat}

theorem Occurs.trans {b : Code} (h : n.Occurs k c) (h' : c.Occurs d b) : n.Occurs (d + k) b := by
  induction h'
  case self => rwa [Nat.zero_add]
  case operand hc _ hi => exact .operand hc hi
  case body d _ _ hc _ hi =>
    rw [Nat.add_right_comm]
    exact .body hc hi

theorem Occurs.mem_nodesAt (h : n.Occurs k c) (d : Nat) : (d + k, n) ∈ c.nodesAt d := by
  induction h generalizing d <;> rw [nodesAt_eq]
  case self => exact .head _
  case operand c' hc _ hi =>
    exact .tail _ (List.mem_append_left _ (List.mem_flatMap.mpr ⟨c', hc, hi d⟩))
  case body k _ c' hc _ hi =>
    have hi := hi (d + 1)
    rw [Nat.add_assoc, Nat.add_comm 1] at hi
    have hc : c' ∈ _ := Option.mem_toList.mpr hc
    exact .tail _ (List.mem_append_right _ (List.mem_flatMap.mpr ⟨c', hc, hi⟩))

theorem exists_occurs {c : Code} {d : Nat} (h : (e, n) ∈ c.nodesAt d) :
    ∃ k, e = d + k ∧ n.Occurs k c := by
  rw [nodesAt_eq, List.mem_cons, List.mem_append, List.mem_flatMap, List.mem_flatMap] at h
  obtain h | ⟨c', hc, h⟩ | ⟨c', hc, h⟩ := h
  · cases h
    exact ⟨0, rfl, .self⟩
  · obtain ⟨k, he, ho⟩ := exists_occurs h
    exact ⟨k, he, .operand hc ho⟩
  · obtain ⟨k, he, ho⟩ := exists_occurs h
    exact ⟨k + 1, by omega, .body (Option.mem_toList.mp hc) ho⟩
termination_by c.nodes.length
decreasing_by
  · exact length_nodes_lt (List.mem_append_left _ hc)
  · exact length_nodes_lt (List.mem_append_right _ hc)

theorem mem_nodes_iff : n ∈ c.nodes ↔ ∃ d, n.Occurs d c := by
  rw [←map_nodesAt 0]
  constructor
  case mp =>
    intro h
    obtain ⟨p, hp, rfl⟩ := List.mem_map.mp h
    obtain ⟨k, _, ho⟩ := exists_occurs hp
    exact ⟨k, ho⟩
  case mpr =>
    rintro ⟨k, ho⟩
    exact List.mem_map.mpr ⟨_, ho.mem_nodesAt 0, rfl⟩

theorem le_deepest {p : Nat × Code} {ps : List (Nat × Code)} (h : p ∈ ps) : p.1 ≤ deepest ps := by
  induction h
  case head => exact Nat.le_max_left ..
  case tail hi => exact Nat.le_trans hi (Nat.le_max_right ..)

end Code

-- A node of a compiled template refers to the loops around it, and there is room for temporaries
-- at its depth.
theorem fits_of_compile {defaults : LoopNames} {tree : List Node} {program : Program}
    (h : compile defaults tree = .ok program) {n : Code} {d : Nat}
    (hn : n.Occurs d program.body) : n.Fits d ∧ d ≤ program.maxDepth := by
  have hs := scoped_of_compile h
  have hm := hn.mem_nodesAt 0
  rw [Nat.zero_add] at hm
  have hd := Code.le_deepest hm
  have hk := hs.deepest_eq
  exact ⟨hs.fits _ hm, by omega⟩

end Stencil
