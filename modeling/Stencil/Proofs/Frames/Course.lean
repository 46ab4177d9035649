import Stencil.Proofs.Compiling.Draft
import Stencil.Proofs.Frames.Restoration
import Stencil.Render.Native
import Stencil.Render.Template

-- In which frames the parts of a template are evaluated, one after the other.
namespace Stencil
namespace Code

-- The operand that is evaluated once those before it have given their values.
def next? : Code → List Value → Option Code
  | cond test _ _, [] => some test
  | cond _ consequent alternate, [v] => some (if v.isTruthy then consequent else alternate)
  | cond _ _ _, _ => none
  | binary .and _ rhs, [v] => if v.isTruthy then some rhs else none
  | binary .or _ rhs, [v] => if v.isTruthy then none else some rhs
  | c, vs => c.operands[vs.length]?

theorem mem_operands_of_next? {c c' : Code} {vs : List Value} (h : c.next? vs = some c') :
    c' ∈ c.operands := by
  unfold next? at h
  split at h
  case h_1 =>
    cases h
    exact .head _
  case h_2 =>
    cases h
    split
    case isTrue => exact .tail _ (.head _)
    case isFalse => exact .tail _ (.tail _ (.head _))
  case h_3 => cases h
  case h_4 | h_5 =>
    split at h <;> cases h
    exact .tail _ (.head _)
  case h_6 => exact List.mem_of_getElem? h

end Code

namespace Eval

variable {σ : Type} {host : Host σ} {input : Input}

-- The operands of a node have given values one after the other, and have led to a state.
inductive Course (host : Host σ) (input : Input) (c : Code) (s : State σ) :
    List Value → State σ → Prop
  | nil : Course host input c s [] s
  | snoc {vs v c' s₁ s₂} :
    Course host input c s vs s₁ → c.next? vs = some c' →
    eval host input c' s₁ = (.ok v, s₂) → Course host input c s (vs ++ [v]) s₂

-- The rounds of a loop for the first pairs have succeeded, and have led to a state.
inductive Progress (host : Host σ) (input : Input) (buffer : Temp) (slot : Nat) (c body : Code)
    (s : State σ) (before after : List (Value × Value)) (s' : State σ) : Prop
  | intro {v s₁ pieces} :
    Course host input c s [v] s₁ → host.pairs v = before ++ after →
    rounds slot (eval host input body) before []
      ⟨s₁.frame.clearBuffer buffer.depth, s₁.store⟩ = (.ok pieces, s') →
    Progress host input buffer slot c body s before after s'

-- The evaluation of a code comes to that of a node in it, which starts in a state. The pairs are
-- those of the rounds that the loops around the node are in, the outermost one first.
inductive Comes (host : Host σ) (input : Input) :
    Code → State σ → List (Value × Value) → Code → State σ → Prop
  | self {c s} : Comes host input c s [] c s
  | operand {c c' n s s₁ s' vs pairs} :
    Course host input c s vs s₁ → c.next? vs = some c' →
    Comes host input c' s₁ pairs n s' → Comes host input c s pairs n s'
  | round {buffer slot key value container body n s s₁ s' before pair after pairs} :
    Progress host input buffer slot (.each buffer slot key value container body) body s before
      (pair :: after) s₁ →
    Comes host input body ⟨s₁.frame.bind slot pair.1 pair.2, s₁.store⟩ pairs n s' →
    Comes host input (.each buffer slot key value container body) s (pair :: pairs) n s'

-- A node comes to all of its operands that are to be evaluated, and a loop to all of its rounds.
structure Completes (host : Host σ) (input : Input) (c : Code) (s : State σ) : Prop where
  operands : ∃ vs s', Course host input c s vs s' ∧ c.next? vs = none
  rounds {buffer slot key value container body} : c = .each buffer slot key value container body →
    ∃ pairs s', Progress host input buffer slot c body s pairs [] s'

-- A node that is evaluated uses its temporary in a frame: to keep a value there, to take it out
-- again, and before and after the rounds of a loop.
inductive Uses (host : Host σ) (input : Input) : Code → State σ → Temp → Frame → Prop
  | put {temp value s v s₁} :
    Course host input (.dethunk temp value) s [v] s₁ →
    Uses host input (.dethunk temp value) s temp s₁.frame
  | take {temp value s v s₁} :
    Course host input (.dethunk temp value) s [v] s₁ →
    Uses host input (.dethunk temp value) s temp (s₁.frame.putValue temp.depth v)
  | start {buffer slot key value container body s v s₁} :
    Course host input (.each buffer slot key value container body) s [v] s₁ →
    Uses host input (.each buffer slot key value container body) s buffer s₁.frame
  | finish {buffer slot key value container body s pairs s₁} :
    Progress host input buffer slot (.each buffer slot key value container body) body s pairs []
      s₁ →
    Uses host input (.each buffer slot key value container body) s buffer (s₁.frame.truncate slot)

variable {m d : Nat} {c n : Code} {s s' : State σ} {pairs : List (Value × Value)}

theorem Course.frame_eq {vs : List Value} (h : Course host input c s vs s')
    (hs : s.frame.Clean m d) (hc : c.AllFit m d) : s'.frame = s.frame := by
  induction h
  case nil => rfl
  case snoc c' s₁ s₂ _ hn he hi =>
    have hr := restores_eval host input c' hs (hc.operand (Code.mem_operands_of_next? hn))
    exact hr s₁ _ s₂ hi he

theorem Progress.extends {buffer : Temp} {slot : Nat} {key value : String} {container body : Code}
    {before after : List (Value × Value)}
    (h : Progress host input buffer slot (.each buffer slot key value container body) body s before
      after s') (hs : s.frame.Clean m d)
    (hc : (Code.each buffer slot key value container body).AllFit m d) :
    s.frame.Extends s'.frame := by
  obtain ⟨hv, _, hr⟩ := h
  obtain ⟨_, rfl⟩ := hc.fits
  have hf := hv.frame_eq hs hc
  have hb := fun pair => restores_eval host input body (hs.extend [pair]) (hc.body rfl)
  refine Restores.rounds hs hb before [] _ _ _ ?_ hr
  exact ⟨[], by simp [hf, hs.clearBuffer (hc.depth_le rfl)]⟩

-- The induction is on the way to the node. All that is evaluated before a part of a node restores
-- the frame, so that only the pairs of the rounds at hand are in it.
theorem Comes.sound (h : Comes host input c s pairs n s') (hs : s.frame.Clean m d)
    (hc : c.AllFit m d) : n.Occurs pairs.length c ∧ s'.frame = s.frame.extend pairs := by
  induction h generalizing d
  case self => exact ⟨.self, by simp [Frame.extend]⟩
  case operand hv hn _ hi =>
    have hf := hv.frame_eq hs hc
    have hm := Code.mem_operands_of_next? hn
    obtain ⟨ho, he⟩ := hi (hf ▸ hs) (hc.operand hm)
    exact ⟨.operand hm ho, hf ▸ he⟩
  case round hr _ hi =>
    have hg := hr.extends hs hc
    obtain ⟨_, rfl⟩ := hc.fits
    have hf := hs.bind hg
    obtain ⟨ho, he⟩ := hi (hf _ _ ▸ hs.extend [_]) (hc.body rfl)
    refine ⟨.body rfl ho, he.trans ?_⟩
    rw [hf, Frame.extend_extend]
    rfl

theorem Uses.hasRoom {t : Temp} {f : Frame} (h : Uses host input n s t f)
    (hs : s.frame.Clean m d) (hn : n.AllFit m d) : f.HasRoom t := by
  have hv : d < s.frame.values.length := by
    rw [hs.length_values]
    exact Nat.lt_succ_of_le hn.le
  have hb : d < s.frame.buffers.length := by
    rw [hs.length_buffers]
    exact Nat.lt_succ_of_le hn.le
  cases h
  case put hc => rwa [hc.frame_eq hs hn, hn.fits, Frame.hasRoom_value]
  case take hc =>
    rwa [hc.frame_eq hs hn, hn.fits, Frame.hasRoom_value, Frame.length_values_putValue hv]
  case start hc => rwa [hc.frame_eq hs hn, hn.fits.1, Frame.hasRoom_buffer]
  case finish hr =>
    have hg := hr.extends hs hn
    obtain ⟨ht, rfl⟩ := hn.fits
    rwa [hs.truncate hg, ht, Frame.hasRoom_buffer]

section

open Act (bind_eq_ok_iff)

variable {v : Value} {vs ws : List Value} {s₁ : State σ}

-- The induction is on the operands that are left.
theorem Course.exists_last {cs : List Code} (h : Course host input c s vs s₁)
    (hn : ∀ vs, c.next? vs = c.operands[vs.length]?) (hc : c.operands.drop vs.length = cs)
    (he : evalAll host input cs s₁ = (.ok ws, s')) :
    ∃ vs s', Course host input c s vs s' ∧ c.next? vs = none := by
  induction cs generalizing vs ws s₁
  case nil =>
    have hl := List.getElem?_eq_none (List.drop_eq_nil_iff.mp hc)
    exact ⟨vs, s₁, h, (hn vs).trans hl⟩
  case cons c' cs hi =>
    obtain ⟨v, s₂, hv, he⟩ := bind_eq_ok_iff.mp he
    obtain ⟨_, _, hu, hw⟩ := bind_eq_ok_iff.mp he
    cases hw
    have hx : c.operands[vs.length]? = some c' := by rw [←List.head?_drop, hc, List.head?_cons]
    have hd : c.operands.drop (vs ++ [v]).length = cs := by
      rw [List.length_append, ←List.drop_drop, hc]
      rfl
    exact hi (h.snoc ((hn vs).trans hx) hv) hd hu

theorem evalAll_of_evalEntries {entries : List (String × Code)} {fields : List (String × Value)}
    (h : evalEntries host input entries s = (.ok fields, s')) :
    evalAll host input (entries.map (·.2)) s = (.ok (fields.map (·.2)), s') := by
  induction entries generalizing s fields
  case nil =>
    cases h
    rfl
  case cons entry entries hi =>
    obtain ⟨v, s₁, hv, h⟩ := bind_eq_ok_iff.mp h
    obtain ⟨_, _, hs, hf⟩ := bind_eq_ok_iff.mp h
    cases hf
    exact bind_eq_ok_iff.mpr ⟨v, s₁, hv, bind_eq_ok_iff.mpr ⟨_, _, hi hs, rfl⟩⟩

theorem exists_course (h : eval host input c s = (.ok v, s')) :
    ∃ vs s', Course host input c s vs s' ∧ c.next? vs = none := by
  cases c
  case text | literal | slot | ambient | data | options => exact ⟨[], s, .nil, rfl⟩
  case array | merge =>
    obtain ⟨_, _, hv, _⟩ := bind_eq_ok_iff.mp h
    exact Course.nil.exists_last (fun _ => rfl) rfl hv
  case object =>
    obtain ⟨_, _, hv, _⟩ := bind_eq_ok_iff.mp h
    exact Course.nil.exists_last (fun _ => rfl) rfl (evalAll_of_evalEntries hv)
  case member | unary | dethunk | each =>
    obtain ⟨_, _, hv, _⟩ := bind_eq_ok_iff.mp h
    exact ⟨_, _, .snoc .nil rfl hv, rfl⟩
  case index =>
    obtain ⟨_, _, ho, h⟩ := bind_eq_ok_iff.mp h
    obtain ⟨_, _, hi, _⟩ := bind_eq_ok_iff.mp h
    exact ⟨_, _, .snoc (.snoc .nil rfl ho) rfl hi, rfl⟩
  case invoke =>
    obtain ⟨_, _, hd, h⟩ := bind_eq_ok_iff.mp h
    obtain ⟨_, _, ho, h⟩ := bind_eq_ok_iff.mp h
    obtain ⟨_, _, hs, _⟩ := bind_eq_ok_iff.mp h
    exact ⟨_, _, .snoc (.snoc (.snoc .nil rfl hd) rfl ho) rfl hs, rfl⟩
  case call callee arguments =>
    obtain ⟨f, s₁, hf, h⟩ := bind_eq_ok_iff.mp h
    obtain ⟨_, _, hv, _⟩ := bind_eq_ok_iff.mp h
    have hc : Course host input (.call callee arguments) s [f] s₁ := .snoc .nil rfl hf
    exact hc.exists_last (fun _ => rfl) rfl hv
  case cond test consequent alternate =>
    obtain ⟨v, s₁, ht, h⟩ := bind_eq_ok_iff.mp h
    have hc : Course host input (.cond test consequent alternate) s [v] s₁ := .snoc .nil rfl ht
    split at h
    case isTrue hv => exact ⟨_, _, hc.snoc (congrArg some (if_pos hv)) h, rfl⟩
    case isFalse hv => exact ⟨_, _, hc.snoc (congrArg some (if_neg hv)) h, rfl⟩
  case binary op lhs rhs =>
    obtain ⟨v, s₁, hl, h⟩ := bind_eq_ok_iff.mp h
    have hc : Course host input (.binary op lhs rhs) s [v] s₁ :=
      .snoc .nil (by cases op <;> rfl) hl
    cases op
    -- Only these leave out the right side for some values of the left one.
    case and =>
      cases hv : v.isTruthy <;> simp only [hv] at h
      case false => exact ⟨_, _, hc, if_neg (by simp [hv])⟩
      case true => exact ⟨_, _, hc.snoc (if_pos hv) h, rfl⟩
    case or =>
      cases hv : v.isTruthy <;> simp only [hv] at h
      case false => exact ⟨_, _, hc.snoc (if_neg (by simp [hv])) h, rfl⟩
      case true => exact ⟨_, _, hc, if_pos hv⟩
    all_goals
      obtain ⟨_, _, hr, _⟩ := bind_eq_ok_iff.mp h
      exact ⟨_, _, hc.snoc rfl hr, rfl⟩

theorem completes_of_eval (h : eval host input c s = (.ok v, s')) : Completes host input c s := by
  refine ⟨exists_course h, ?_⟩
  rintro buffer slot key value container body rfl
  obtain ⟨v, s₁, hv, h⟩ := bind_eq_ok_iff.mp h
  obtain ⟨_, _, hb, h⟩ := bind_eq_ok_iff.mp h
  cases hb
  obtain ⟨_, s₂, hr, _⟩ := bind_eq_ok_iff.mp h
  exact ⟨host.pairs v, s₂, .snoc .nil rfl hv, (List.append_nil _).symm, hr⟩

end

-- A rendering starts in a clean frame, and a node of a compiled template that is evaluated in a
-- clean frame leaves it as it was. All nodes that its evaluation comes to start in that frame, with
-- the pairs of the rounds at hand in further slots and nothing else. No frame ever has to grow for
-- a temporary.
theorem frame_restored {defaults : LoopNames} {tree : List Node} {program : Program}
    (h : compile defaults tree = .ok program) :
    (Frame.start program.maxDepth).Clean program.maxDepth 0 ∧
    ∀ {σ : Type} (host : Host σ) (input : Input) (c : Code) (d : Nat) (s : State σ),
      c.Occurs d program.body → s.frame.Clean program.maxDepth d →
      (∀ v s', eval host input c s = (.ok v, s') →
        s'.frame = s.frame ∧ Completes host input c s) ∧
      ∀ pairs n s', Comes host input c s pairs n s' →
        n.Occurs (d + pairs.length) program.body ∧ s'.frame = s.frame.extend pairs ∧
        s'.frame.Clean program.maxDepth (d + pairs.length) ∧
        ∀ t f, Uses host input n s' t f → f.HasRoom t := by
  refine ⟨Frame.clean_start _, fun host input c d s hc hs => ?_⟩
  have ha : c.AllFit program.maxDepth d := fun k n hn => fits_of_compile h (hn.trans hc)
  refine ⟨fun v s' he => ?_, fun pairs n s' hn => ?_⟩
  case refine_1 => exact ⟨restores_eval host input c hs ha s v s' rfl he, completes_of_eval he⟩
  case refine_2 =>
    obtain ⟨ho, hf⟩ := hn.sound hs ha
    have hp : s'.frame.Clean program.maxDepth (d + pairs.length) := hf ▸ hs.extend pairs
    have hn : n.AllFit program.maxDepth (d + pairs.length) :=
      fun k n hn => fits_of_compile h (hn.trans (ho.trans hc))
    exact ⟨ho.trans hc, hf, hp, fun t f hu => hu.hasRoom hp hn⟩

-- The inner loop is evaluated in a round of the outer one. Its second round sees nothing of the
-- first.
theorem frame_restored_nested :
    let body : Code := .concat .empty (.dethunk ⟨.value, 2⟩ (.slot 3))
    let inner : Code := .each ⟨.buffer, 1⟩ 2 "$index" "$value" (.slot 1) body
    let row : Value := .array 0 [.string "a", .string "b"]
    let s : State Store :=
      ⟨⟨[.null, row], [.undefined, .undefined, .undefined], [[], [], []]⟩, .start⟩
    let host := Template.host Store.services .empty 1
    let input : Input := ⟨.undefined, .undefined⟩
    ∃ program,
      compile .default [.tag "each" "(i, row) rows" [.tag "each" "row" [.tag "=" "$value" []]]] =
        .ok program ∧
      inner.Occurs 1 program.body ∧ s.frame.Clean program.maxDepth 1 ∧
      (∃ s', eval host input inner s = (.ok (.string "ab"), s') ∧ s'.frame = s.frame) ∧
      ∃ s', Comes host input inner s [(.number 1, .string "b")] body s' ∧
        s'.frame.slots = [.null, row, .number 1, .string "b"] ∧
        s'.frame.values = s.frame.values := by
  intro body inner row s host input
  obtain ⟨tree, ht⟩ : ∃ tree : List Node, tree =
    [.tag "each" "(i, row) rows" [.tag "each" "row" [.tag "=" "$value" []]]] := ⟨_, rfl⟩
  have hk : (compile .default tree).toOption.map Program.maxDepth = some 2 := by
    subst ht
    decide +kernel
  have hd : Draft.ofTree .default tree = some (.each ⟨"i", "row"⟩ (.expression (.name "rows"))
      (.each ⟨"$index", "$value"⟩ (.expression (.name "row"))
        (.concat (.text "") (.dethunk (.expression (.name "$value")))))) := by
    subst ht
    rfl
  cases h : compile .default tree
  case error => simp [h, Except.toOption] at hk
  case ok program =>
    have hk : program.maxDepth = 2 := by simpa [h, Except.toOption] using hk
    obtain ⟨draft, hd', hb⟩ := compile_draft h
    have hd := Option.some.inj (hd'.symm.trans hd)
    subst hd
    have ho : inner.Occurs 1 program.body := hb ▸ .body rfl .self
    have hs : s.frame.Clean program.maxDepth 1 := hk ▸ ⟨rfl, rfl, rfl⟩
    have hp : Progress host input ⟨.buffer, 1⟩ 2 inner body s [(.number 0, .string "a")]
      [(.number 1, .string "b")] _ := ⟨.snoc .nil rfl rfl, rfl, rfl⟩
    have hc : Comes host input inner s [(.number 1, .string "b")] body _ := .round hp .self
    have hr := (frame_restored h).2 host input inner 1 s ho hs
    have hf := (hr.2 _ _ _ hc).2.1
    exact ⟨program, ht ▸ h, ho, hs, ⟨_, rfl, (hr.1 _ _ rfl).1⟩, _, hc, hf ▸ rfl, hf ▸ rfl⟩

end Eval
end Stencil
