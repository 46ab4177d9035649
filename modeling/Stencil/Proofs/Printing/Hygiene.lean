import Stencil.Proofs.Printing.Naming

-- When the parameters of loops capture names that the source uses for itself.
namespace Stencil
namespace Code

theorem Flat.not_mem_nodes {c : Code} {d : Nat} {buffer : Temp} {slot : Nat} {key value : String}
    {container body : Code} (h : Flat d (c.nodesAt d)) :
    .each buffer slot key value container body ∉ c.nodes := by
  rw [←map_nodesAt d]
  intro hm
  have ⟨p, hp, he⟩ := List.mem_map.mp hm
  have hl := (h p hp).2.2
  rw [he] at hl
  contradiction

-- All names that are written for a node and the nodes below it and are not those of loop variables.
def allOwnNames (c : Code) : List String :=
  c.nodes.flatMap ownNames

end Code

namespace Source

-- The names that the source uses for itself: parameters, helpers and temporaries.
def isReserved (x : String) : Bool :=
  ["$data", "$options", "$lookup", "$each", "$merge", "$tmpl"].contains x ||
    match x.toList with
    | '$' :: 'v' :: digits | '$' :: 'a' :: digits => !digits.isEmpty && digits.all isDigit
    | _ => false

-- Nothing that is written at a place for the source itself has the name of a parameter of a function
-- around it.
def Place.Hygienic (literal : String → String) (p : Place) : Prop :=
  ∀ q x, p.Holds literal q → q.piece = .own x → ∀ l ∈ q.loops, x ≠ l.key ∧ x ≠ l.value

variable {literal : String → String} {p q r : Place} {c c' n : Code} {x : String}

-- What is written for a node or the nodes below it.
def Piece.From (c : Code) : Piece → Prop
  | own x => x ∈ c.allOwnNames
  | node c' => c'.nodes ⊆ c.nodes
  | _ => True

theorem Piece.From.mono {piece : Piece} (h : piece.From c) (hc : c.nodes ⊆ c'.nodes) :
    piece.From c' := by
  cases piece
  case own x =>
    have ⟨n, hn, hx⟩ := List.mem_flatMap.mp h
    exact List.mem_flatMap.mpr ⟨n, hc hn, hx⟩
  case node => exact List.Subset.trans h hc
  all_goals trivial

theorem Place.from_of_mem_inner (hp : p.piece = .node c) (hq : q ∈ p.inner literal) :
    q.piece.From c := by
  have ho (x : String) (hx : x ∈ c.ownNames) : x ∈ c.allOwnNames :=
    List.mem_flatMap.mpr ⟨c, c.mem_nodes_self, hx⟩
  obtain ⟨_, h⟩ | ⟨buffer, _, _, _, _, body, he, _, h⟩ := mem_inner hp hq
  · cases hr : q.piece <;> rw [hr] at h <;> try trivial
    case own x => exact ho x h
    case node c' => exact Code.nodes_subset (List.mem_append_left _ h)
  · cases hr : q.piece <;> rw [hr] at h <;> try trivial
    case own x =>
      have h : x = buffer.name := h
      exact ho x (by simp [he, Code.ownNames, h])
    case node c' =>
      have h : c' = body := h
      exact Code.nodes_subset (by simp [he, Code.loopBody?, h])

-- A place in what is written for a node, where each loop around it is that of a node whose function
-- the place is in.
structure Place.Within (c : Code) (p : Place) : Prop where
  piece : p.piece.From c
  loops : ∀ l ∈ p.loops, ∃ buffer container body,
    .each buffer l.slot l.key l.value container body ∈ c.nodes ∧
    (p.piece = .own buffer.name ∨ p.piece.From body)

theorem Place.Within.inner (h : p.Within c) (hq : q ∈ p.inner literal) : q.Within c := by
  have ⟨c', hp⟩ := exists_node hq
  have hf := from_of_mem_inner hp hq
  have hc : c'.nodes ⊆ c.nodes := by simpa [hp, Piece.From] using h.piece
  have hl : ∀ l ∈ p.loops, ∃ buffer container body,
      .each buffer l.slot l.key l.value container body ∈ c.nodes ∧
      (q.piece = .own buffer.name ∨ q.piece.From body) := by
    intro l hl
    have ⟨buffer, container, body, he, hb⟩ := h.loops l hl
    have hb : c'.nodes ⊆ body.nodes := by simpa [hp, Piece.From] using hb
    exact ⟨buffer, container, body, he, .inr (hf.mono hb)⟩
  refine ⟨hf.mono hc, ?_⟩
  obtain ⟨he, _⟩ | ⟨buffer, slot, key, value, container, body, hn, he, hi⟩ := mem_inner hp hq
  · exact he ▸ hl
  · rw [he]
    refine List.forall_mem_cons.mpr ⟨⟨buffer, container, body, ?_, ?_⟩, hl⟩
    · exact hc (hn ▸ c'.mem_nodes_self)
    · cases hr : q.piece <;> rw [hr] at hi <;> try exact .inr trivial
      case own => exact .inl (congrArg Piece.own hi)
      case node => exact .inr ((hi : _ = body) ▸ List.Subset.refl _)

theorem Place.Within.holds (h : p.Within c) (hq : p.Holds literal q) : q.Within c := by
  induction hq
  case self => exact h
  case inner hr hi => exact hi.inner hr

-- Every node below the one at a place is written at some place in it, inside of the same loops.
theorem Place.exists_holds (literal : String → String) {p : Place} {c : Code}
    (hp : p.piece = .node c) (hn : n ∈ c.nodes) :
    ∃ q, p.Holds literal q ∧ q.piece = .node n ∧ p.loops ⊆ q.loops := by
  rw [Code.nodes_eq] at hn
  cases hn
  case head => exact ⟨p, .self, hp, List.Subset.refl _⟩
  case tail hn =>
    have ⟨c', hc, hn⟩ := List.mem_flatMap.mp hn
    have hm : .node c' ∈ (layout literal c).filter Piece.isNode := by
      rw [filter_layout]
      exact List.mem_map_of_mem hc
    have ⟨q, hq, hqc⟩ := exists_inner hp (List.mem_filter.mp hm).1
    have ⟨r, hr, hrc, hl⟩ := exists_holds literal hqc hn
    exact ⟨r, (Holds.self.inner hq).trans hr, hrc, List.Subset.trans (loops_subset hq) hl⟩
termination_by c.nodes.length
decreasing_by exact Code.length_nodes_lt hc

theorem own_mem_layout (literal : String → String) (hx : x ∈ c.ownNames) :
    .own x ∈ layout literal c := by
  cases c <;> simp [Code.ownNames] at hx
  all_goals simp [layout, hx]
  all_goals grind

-- The function of a loop writes to the buffer of the loop, besides what is written for the body.
theorem Place.exists_inside_each (literal : String → String) {buffer : Temp} {slot : Nat}
    {key value : String} {container body : Code}
    (hp : p.piece = .node (.each buffer slot key value container body)) :
    (∃ q ∈ p.inner literal, q.piece = .own buffer.name ∧ ⟨slot, key, value⟩ ∈ q.loops) ∧
    ∃ q ∈ p.inner literal, q.piece = .node body ∧ ⟨slot, key, value⟩ ∈ q.loops := by
  simp [inner, hp, layout, places, Piece.around]

theorem Place.exists_own (literal : String → String) (hp : p.piece = .node c)
    (hx : x ∈ c.allOwnNames) : ∃ q, p.Holds literal q ∧ q.piece = .own x ∧ p.loops ⊆ q.loops := by
  have ⟨n, hn, hx⟩ := List.mem_flatMap.mp hx
  have ⟨q, hq, hqn, hl⟩ := exists_holds literal hp hn
  have ⟨r, hr, hrx⟩ := exists_inner hqn (own_mem_layout literal hx)
  exact ⟨r, hq.inner hr, hrx, List.Subset.trans hl (loops_subset hr)⟩

theorem Place.hygienic_iff (literal : String → String) (hp : p.piece = .node c)
    (hl : p.loops = []) :
    p.Hygienic literal ↔ ∀ buffer slot key value container body,
      .each buffer slot key value container body ∈ c.nodes →
      ∀ x ∈ buffer.name :: body.allOwnNames, x ≠ key ∧ x ≠ value := by
  constructor
  case mp =>
    intro h buffer slot key value container body he x hx
    have ⟨q, hq, hqc, _⟩ := exists_holds literal hp he
    have ⟨⟨r, hr, hrx, hm⟩, s, hs, hsb, hm'⟩ := exists_inside_each literal hqc
    cases hx
    case head => exact h r _ (hq.inner hr) hrx _ hm
    case tail hx =>
      have ⟨t, ht, htx, hl⟩ := exists_own literal hsb hx
      exact h t x ((hq.inner hs).trans ht) htx _ (hl hm')
  case mpr =>
    intro h q x hq hx l hl'
    have hw : p.Within c := ⟨hp ▸ List.Subset.refl _, by simp [hl]⟩
    have ⟨buffer, container, body, he, hb⟩ := (hw.holds hq).loops l hl'
    refine h _ _ _ _ _ _ he x ?_
    rw [hx] at hb
    cases hb
    case inl hb => exact Piece.own.inj hb ▸ .head _
    case inr hb => exact .tail _ hb

theorem isReserved_name (t : Temp) : isReserved t.name := by
  have hd : ∀ c ∈ Nat.toDigits 10 t.depth, isDigit c := fun c hc =>
    Nat.isDigit_of_mem_toDigits (by omega) (by omega) hc
  unfold isReserved Temp.name
  cases t.kind <;> simp only [String.toList_append] <;> simp <;> exact .inr hd

theorem isReserved_ownNames (c : Code) : ∀ x ∈ c.ownNames, isReserved x := by
  cases c <;> simp only [Code.ownNames, List.forall_mem_cons, isReserved_name]
  all_goals decide

end Source

namespace Draft

-- The names that the loops of a draft bind.
def loopNames : Draft → List LoopNames
  | text _ | expression _ | passedData | options => []
  | concat lhs rhs => lhs.loopNames ++ rhs.loopNames
  | cond test consequent alternate =>
    test.loopNames ++ consequent.loopNames ++ alternate.loopNames
  | pass callee argument => callee.loopNames ++ argument.loopNames
  | dethunk value => value.loopNames
  | each names container body => names :: (container.loopNames ++ body.loopNames)
  | invoke d o selector => d.loopNames ++ o.loopNames ++ selector.loopNames

theorem mem_loopNames {d : Draft} {loops : List LoopNames} {buffer : Temp} {slot : Nat}
    {key value : String} {container body : Code}
    (h : .each buffer slot key value container body ∈ (d.code loops).nodes) :
    ⟨key, value⟩ ∈ d.loopNames := by
  induction d generalizing loops
  case expression e => exact absurd h (e.flat_toCode (.inside loops)).not_mem_nodes
  case passedData => exact absurd h (Compile.flat_passedData (.inside loops)).not_mem_nodes
  case each names _ _ hc hb =>
    simp only [code, Code.nodes, List.mem_cons, List.mem_append, Code.each.injEq] at h
    obtain ⟨_, _, rfl, rfl, _⟩ | h | h := h
    · exact .head _
    · exact .tail _ (List.mem_append_left _ (hc h))
    · exact .tail _ (List.mem_append_right _ (hb h))
  all_goals simp [code, Code.nodes, Code.concat, Code.nodesAll, loopNames] at h ⊢
  all_goals grind

end Draft

namespace Source

-- The source of a compiled template is hygienic exactly if no loop has a name that is written in
-- its function for the source itself. It is so in any case if no loop has a reserved name.
theorem source_hygienic_iff {defaults : LoopNames} {tree : List Node} {program : Program}
    (h : compile defaults tree = .ok program) (literal : String → String) (name : Option String) :
    ((program.place name).Hygienic literal ↔ ∀ buffer slot key value container body,
      .each buffer slot key value container body ∈ program.body.nodes →
      ∀ x ∈ buffer.name :: body.allOwnNames, x ≠ key ∧ x ≠ value) ∧
    ∃ draft, Draft.ofTree defaults tree = some draft ∧
      ((∀ names ∈ draft.loopNames, !isReserved names.key ∧ !isReserved names.value) →
        (program.place name).Hygienic literal) := by
  have hi := Place.hygienic_iff (p := program.place name) literal rfl rfl
  have ⟨draft, hd, hb⟩ := compile_draft h
  refine ⟨hi, draft, hd, fun hn => hi.mpr fun buffer slot key value container body he x hx => ?_⟩
  have hr : isReserved x := by
    cases hx
    case head => exact isReserved_name buffer
    case tail hx =>
      have ⟨n, _, hx⟩ := List.mem_flatMap.mp hx
      exact isReserved_ownNames n x hx
  have ⟨hk, hv⟩ := hn ⟨key, value⟩ (Draft.mem_loopNames (hb ▸ he))
  refine ⟨?_, ?_⟩
  · rintro rfl
    simp [hr] at hk
  · rintro rfl
    simp [hr] at hv

theorem source_hygienic_iff_nested :
    ∃ program,
      compile .default [.tag "each" "(k, v) rows"
        [.tag "tmpl" "part" [], .tag "each" "v" [.tag "=" "$value" []]]] = .ok program ∧
      (program.place none).Hygienic literal := by
  have ⟨tree, ht⟩ : ∃ tree : List Node, tree = [.tag "each" "(k, v) rows"
      [.tag "tmpl" "part" [], .tag "each" "v" [.tag "=" "$value" []]]] := ⟨_, rfl⟩
  have hk : (compile .default tree).toOption.isSome := by
    subst ht
    decide +kernel
  have hn : (Draft.ofTree .default tree).map Draft.loopNames =
      some [⟨"k", "v"⟩, ⟨"$index", "$value"⟩] := by
    subst ht
    decide +kernel
  cases h : compile .default tree
  case error => simp [h, Except.toOption] at hk
  case ok program =>
    have ⟨draft, hd, hh⟩ := (source_hygienic_iff h literal none).2
    rw [hd, Option.map_some, Option.some.injEq] at hn
    exact ⟨program, ht ▸ h, hh (hn ▸ by decide)⟩

-- A loop that names the key `$data` captures the data that its body passes on.
theorem data_captured :
    ∃ program,
      compile .default [.tag "each" "($data, v) rows" [.tag "tmpl" "part" []]] = .ok program ∧
      ¬(program.place none).Hygienic literal := by
  have ⟨tree, ht⟩ : ∃ tree : List Node,
      tree = [.tag "each" "($data, v) rows" [.tag "tmpl" "part" []]] := ⟨_, rfl⟩
  have hk : (compile .default tree).toOption.isSome := by
    subst ht
    decide +kernel
  have hd : Draft.ofTree .default tree = some (.each ⟨"$data", "v"⟩ (.expression (.name "rows"))
      (.invoke .passedData .options (.expression (.name "part")))) := by
    subst ht
    rfl
  cases h : compile .default tree
  case error => simp [h, Except.toOption] at hk
  case ok program =>
    have ⟨draft, hd', hb⟩ := compile_draft h
    have hd := Option.some.inj (hd'.symm.trans hd)
    refine ⟨program, ht ▸ h, fun hh => ?_⟩
    rw [Place.hygienic_iff literal rfl rfl, ←hb, hd] at hh
    exact (hh _ _ _ _ _ _ (Code.mem_nodes_self _) "$data" (by decide)).1 rfl

end Source
end Stencil
