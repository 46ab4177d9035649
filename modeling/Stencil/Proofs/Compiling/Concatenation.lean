import Stencil.Proofs.Compiling.FirstFault
import Stencil.Proofs.Compiling.Scoping
import Stencil.Proofs.Meaning.Preservation
import Stencil.Proofs.Temporaries

-- The output of a group is the outputs of its parts, one after the other.
namespace Stencil

namespace Eval

variable {σ α : Type}

-- Whenever the evaluation gives a value, the value is a text.
def Texts (x : Eval σ Value) : Prop :=
  Act.Triple (fun _ => True) x fun v _ => ∃ s, v.IsText s

theorem Texts.pure {s : String} : Texts (pure (.string s) : Eval σ Value) :=
  Act.Triple.pure fun _ _ => ⟨s, rfl⟩

theorem Texts.bind {x : Eval σ α} {f : α → Eval σ Value} (h : ∀ a, Texts (f a)) :
    Texts (x >>= f) :=
  Act.Triple.bind (Q := fun _ _ => True) (fun _ _ _ _ _ => trivial) h

def output (host : Host σ) (input : Input) (c : Code) : Eval σ String := do
  return (← eval host input c).text

end Eval

namespace Code

open Eval (Texts)

variable {c lhs rhs : Code}

def GivesText (c : Code) : Prop :=
  ∀ (σ : Type) (host : Host σ) (input : Input), Texts (Eval.eval host input c)

namespace GivesText

theorem text {s : String} : (text s).GivesText :=
  fun _ _ _ => .pure

theorem concat (h : lhs.GivesText) : (concat lhs rhs).GivesText := by
  intro σ host input s v s' _ hv
  have ⟨a, s₁, ha, hv⟩ := Act.bind_eq_ok_iff.mp hv
  have ⟨t, ht⟩ := h σ host input s a s₁ trivial ha
  have ⟨b, s₂, _, hv⟩ := Act.bind_eq_ok_iff.mp hv
  cases hv
  exact ⟨t ++ b.text, ht.add rfl⟩

theorem join (hl : lhs.GivesText) : (Compile.join lhs rhs).GivesText :=
  fun σ host input => Eval.eval_join lhs rhs ▸ hl.concat σ host input

theorem cond {test : Code} (hl : lhs.GivesText) (hr : rhs.GivesText) :
    (cond test lhs rhs).GivesText :=
  fun σ host input => .bind fun v => by
    split
    case isTrue => exact hl σ host input
    case isFalse => exact hr σ host input

theorem each {buffer : Temp} {n : Nat} {key value : String} {container body : Code} :
    (each buffer n key value container body).GivesText :=
  fun _ _ _ => .bind fun _ => .bind fun _ => .bind fun _ => .bind fun _ => .bind fun _ => .pure

theorem invoke {d o selector : Code} {name : Option String} :
    (invoke d o selector name).GivesText :=
  fun _ _ _ => .bind fun _ => .bind fun _ => .bind fun _ => .bind fun _ => .pure

end GivesText

def loopBodies (c : Code) : List Code :=
  c.nodes.filterMap loopBody?

theorem Flat.loopBodies_eq_nil {d : Nat} (h : Flat d (c.nodesAt d)) : c.loopBodies = [] := by
  rw [loopBodies, ←map_nodesAt d, List.filterMap_map, List.filterMap_eq_nil_iff]
  exact fun p hp => (h p hp).2.2

theorem loopBodies_concat (lhs rhs : Code) :
    (concat lhs rhs).loopBodies = lhs.loopBodies ++ rhs.loopBodies :=
  List.filterMap_append

theorem loopBodies_join (lhs rhs : Code) :
    (Compile.join lhs rhs).loopBodies = lhs.loopBodies ++ rhs.loopBodies := by
  unfold Compile.join
  split
  case h_1 => rfl
  case h_2 => exact loopBodies_concat lhs rhs

theorem loopBodies_call (callee argument : Code) :
    (call callee [argument]).loopBodies = callee.loopBodies ++ argument.loopBodies := by
  rw [loopBodies, nodes, nodesAll, nodesAll, List.append_nil]
  exact List.filterMap_append

theorem loopBodies_cond (test consequent alternate : Code) :
    (cond test consequent alternate).loopBodies =
      test.loopBodies ++ consequent.loopBodies ++ alternate.loopBodies := by
  simp only [loopBodies, ←List.filterMap_append]
  rfl

theorem loopBodies_each (buffer : Temp) (n : Nat) (key value : String) (container body : Code) :
    (each buffer n key value container body).loopBodies =
      body :: (container.loopBodies ++ body.loopBodies) := by
  simp only [loopBodies, ←List.filterMap_append]
  rfl

-- The code gives a text, and so do the bodies of all loops in it.
structure Textual (c : Code) : Prop where
  gives : c.GivesText
  loops : ∀ b ∈ c.loopBodies, b.GivesText

theorem Textual.empty : Textual .empty :=
  ⟨.text, nofun⟩

end Code

namespace Compile

open Code

variable {defaults : LoopNames} {s : Scope} {cs : List Char} {c c' : Code} {fs : List Fragment}
  {arms : List Arm}

-- A part of a group gives a text if that is what it is said to do.
structure Fragment.Sound (f : Fragment) : Prop where
  gives : ∀ c, f = .text c → c.GivesText
  loops : ∀ b ∈ f.code.loopBodies, b.GivesText

theorem Fragment.Sound.text (h : c.Textual) : Sound (.text c) :=
  ⟨fun _ hc => Fragment.text.inj hc ▸ h.gives, h.loops⟩

theorem Fragment.Sound.value (h : c.loopBodies = []) : Sound (.value c) :=
  ⟨nofun, by simp [Fragment.code, h]⟩

theorem Fragment.Sound.after {p : Bool} {f : Fragment} (hf : f.Sound) (hc : c.Textual) :
    (f.after p c).Textual := by
  unfold Fragment.after
  split
  case isTrue =>
    refine ⟨hc.gives.join, ?_⟩
    rw [loopBodies_join]
    exact List.forall_mem_append.mpr ⟨hc.loops, hf.loops⟩
  case isFalse =>
    split
    case h_1 c => exact ⟨hf.gives c rfl, hf.loops⟩
    case h_2 =>
      refine ⟨GivesText.text.concat, ?_⟩
      rw [loopBodies_concat]
      exact hf.loops

theorem textual_assembleFrom {p : Bool} (hc : c.Textual) (hf : ∀ f ∈ fs, f.Sound) :
    (assembleFrom p c fs).Textual := by
  induction fs generalizing p c
  case nil => exact hc
  case cons f fs hi =>
    have ⟨hf, hfs⟩ := List.forall_mem_cons.mp hf
    exact hi (hf.after hc) hfs

theorem textual_assemble (hf : ∀ f ∈ fs, f.Sound) : (assemble fs).Textual :=
  textual_assembleFrom .empty hf

theorem Spells.loopBodies_eq (h : Spells s cs c) : c.loopBodies = [] :=
  (h.flat rfl).loopBodies_eq_nil

theorem Passes.loopBodies_eq {pieces : List (List Char)} (h : Passes s c pieces c')
    (hc : c.loopBodies = []) : c'.loopBodies = [] := by
  induction h
  case nil => exact hc
  case cons hp _ hi => exact hi (by rw [loopBodies_call, hp.loopBodies_eq, hc, List.nil_append])

theorem Substitutes.loopBodies_eq (h : Substitutes s cs c) : c.loopBodies = [] := by
  have ⟨_, hv, hp⟩ := h
  exact hp.loopBodies_eq hv.loopBodies_eq

theorem Invokes.textual (h : Invokes s cs c) : c.Textual := by
  have hb := (h.flat rfl).loopBodies_eq_nil
  cases h
  exact ⟨.invoke, by simp [hb]⟩

structure Arm.Sound (arm : Arm) : Prop where
  body : arm.body.Textual
  test : ∀ c, arm.test = some c → c.loopBodies = []

theorem textual_choose (h : ∀ arm ∈ arms, arm.Sound) : (choose arms).Textual := by
  induction arms
  case nil => exact .empty
  case cons arm arms hi =>
    have ⟨ha, hs⟩ := List.forall_mem_cons.mp h
    have ⟨test, body⟩ := arm
    cases test
    case none => exact ha.body
    case some test =>
      refine ⟨ha.body.gives.cond (hi hs).gives, ?_⟩
      rw [choose, loopBodies_cond, ha.test test rfl, List.nil_append]
      exact List.forall_mem_append.mpr ⟨ha.body.loops, (hi hs).loops⟩

theorem Distinguishes.loopBodies_eq {isLast : Bool} {test : Option Code}
    (h : Distinguishes s cs isLast test) : ∀ c, test = some c → c.loopBodies = [] := by
  intro c hc
  cases h
  case always => cases hc
  case condition ht =>
    cases hc
    exact ht.loopBodies_eq

mutual

theorem Emits.sound {defaults s n f} : Emits defaults s n f → f.Sound
  | .text => .text ⟨.text, nofun⟩
  | .substitution h => .value h.loopBodies_eq
  | .invocation h => .text h.textual
  | .conditional _ ht hb => by
    have ⟨hc, ho⟩ := hb.sound
    refine .text (textual_choose (List.forall_mem_cons.mpr ⟨⟨textual_assemble hc, ?_⟩, ho⟩))
    exact fun _ hc => Option.some.inj hc ▸ ht.loopBodies_eq
  | .loop _ hc hb => by
    have h := textual_assemble hb.sound
    refine .text ⟨.each, ?_⟩
    rw [loopBodies_each, hc.loopBodies_eq]
    exact List.forall_mem_cons.mpr ⟨h.gives, h.loops⟩

theorem EmitsAll.sound {defaults s ns fs} : EmitsAll defaults s ns fs → ∀ f ∈ fs, f.Sound
  | .nil => nofun
  | .cons h hf => List.forall_mem_cons.mpr ⟨h.sound, hf.sound⟩

theorem EmitsBranches.sound {defaults s ns fs arms} : EmitsBranches defaults s ns fs arms →
    (∀ f ∈ fs, f.Sound) ∧ ∀ arm ∈ arms, arm.Sound
  | .nil => ⟨nofun, nofun⟩
  | .sibling _ h hb => ⟨List.forall_mem_cons.mpr ⟨h.sound, hb.sound.1⟩, hb.sound.2⟩
  | .otherwise ht hg hb => by
    have h := textual_assemble (List.forall_mem_append.mpr ⟨hg.sound, hb.sound.1⟩)
    exact ⟨nofun, List.forall_mem_cons.mpr ⟨⟨h, ht.loopBodies_eq⟩, hb.sound.2⟩⟩

end

section

open Eval (output)

variable {σ : Type} {host : Host σ} {input : Input}

theorem output_empty : output host input .empty = pure "" := by
  simp [output, Code.empty, Eval.eval, Value.text]

theorem output_concat (h : c.GivesText) :
    output host input (.concat c c') =
      Meaning.concat (output host input c) (output host input c') := by
  funext s
  simp only [output, Meaning.concat, Code.concat, Eval.eval, bind_assoc, pure_bind, Value.binary]
  cases hv : Eval.eval host input c s
  case mk r s₁ =>
    cases r
    case error => rw [Act.bind_apply_error hv, Act.bind_apply_error hv]
    case ok v =>
      obtain ⟨t, ht⟩ := h σ host input s v s₁ trivial hv
      have ha (w : Value) : (v.add w).text = v.text ++ w.text := ht.prints ▸ (ht.add rfl).prints
      simp only [Act.bind_apply_ok hv, ha]

-- The outputs of the parts of a group, one after the other.
def outputs (host : Host σ) (input : Input) : List Fragment → Eval σ String
  | [] => pure ""
  | f :: fs => Meaning.concat (output host input f.code) (outputs host input fs)

theorem outputs_append (fs gs : List Fragment) :
    outputs host input (fs ++ gs) =
      Meaning.concat (outputs host input fs) (outputs host input gs) := by
  induction fs
  case nil => exact (Meaning.pure_concat _).symm
  case cons f fs hi => rw [List.cons_append, outputs, outputs, hi, Meaning.concat_assoc]

theorem output_after {p : Bool} (f : Fragment) (hc : c.GivesText) (hp : p = false → c = .empty) :
    output host input (f.after p c) =
      Meaning.concat (output host input c) (output host input f.code) := by
  unfold Fragment.after
  split
  case isTrue => rw [output, Eval.eval_join, ←output_concat hc, output]
  case isFalse hp' =>
    cases hp (by simpa using hp')
    split
    case h_1 => rw [output_empty, Meaning.pure_concat, Fragment.code]
    case h_2 => exact output_concat hc

theorem output_assembleFrom {p : Bool} (hc : c.Textual) (hp : p = false → c = .empty)
    (hf : ∀ f ∈ fs, f.Sound) :
    output host input (assembleFrom p c fs) =
      Meaning.concat (output host input c) (outputs host input fs) := by
  induction fs generalizing p c
  case nil => exact (Meaning.concat_pure _).symm
  case cons f fs hi =>
    obtain ⟨hf, hfs⟩ := List.forall_mem_cons.mp hf
    rw [assembleFrom, hi (p := true) (hf.after hc) (by simp) hfs, output_after f hc.gives hp,
      outputs, Meaning.concat_assoc]

theorem output_assemble (hf : ∀ f ∈ fs, f.Sound) :
    output host input (assemble fs) = outputs host input fs := by
  rw [assemble, output_assembleFrom .empty (fun _ => rfl) hf, output_empty, Meaning.pure_concat]

end

theorem nodes_append (defaults : LoopNames) (xs ys : List Node) (code : Code) :
    nodes defaults (xs ++ ys) code = nodes defaults xs code >>= nodes defaults ys := by
  induction xs generalizing code
  case nil => exact (pure_bind ..).symm
  case cons n xs hi => simp only [List.cons_append, nodes, hi, bind_assoc]

-- The output of siblings, compiled as a group wherever they stand.
def rendering (defaults : LoopNames) (context : Context) {σ : Type} (host : Host σ) (input : Input)
    (ns : List Node) : Except CompileError (Eval σ String) :=
  (group (nodes defaults ns .empty) context).1.map (Eval.output host input)

section

variable {σ : Type} (defaults : LoopNames) (context : Context) (host : Host σ) (input : Input)

variable {defaults context host input} in
theorem rendering_eq {ns : List Node} {r : Except CompileError Code} {k : Nat} {q : Bool}
    (h : Runs context.scope k false (nodes defaults ns .empty) r q) :
    rendering defaults context host input ns = r.map (Eval.output host input) := by
  rw [rendering, h.group.fst_eq ⟨rfl, rfl⟩ rfl]

theorem rendering_append (xs ys : List Node) :
    rendering defaults context host input (xs ++ ys) = (do
      let x ← rendering defaults context host input xs
      let y ← rendering defaults context host input ys
      return Meaning.concat x y) := by
  have ⟨r₁, ho₁, h₁⟩ := collects_nodes defaults context.scope xs
  have ⟨r₂, ho₂, h₂⟩ := collects_nodes defaults context.scope ys
  have h := (h₁ false .empty).bind fun code => h₂ _ code
  rw [←nodes_append] at h
  rw [rendering_eq h, rendering_eq (h₁ false .empty), rendering_eq (h₂ false .empty)]
  cases ho₁
  case error => rfl
  case ok fs _ hf =>
    cases ho₂
    case error => rfl
    case ok gs _ hg =>
      have ha : assembleFrom (false || !xs.isEmpty) (assemble fs) gs = assemble (fs ++ gs) := by
        rw [←hf.isEmpty_eq]
        exact (assembleFrom_append false .empty fs gs).symm
      have ho : Eval.output host input (assemble (fs ++ gs)) =
          Meaning.concat (Eval.output host input (assemble fs))
            (Eval.output host input (assemble gs)) := by
        rw [output_assemble (List.forall_mem_append.mpr ⟨hf.sound, hg.sound⟩), outputs_append,
          output_assemble hf.sound, output_assemble hg.sound]
      exact congrArg Except.ok ((congrArg _ ha).trans ho)

theorem rendering_start (tree : List Node) :
    rendering defaults ⟨.empty, false⟩ host input tree =
      (compile defaults tree).map fun p => Eval.output host input p.body := by
  unfold rendering compile
  split
  case h_1 h | h_2 h => rw [h]; rfl

theorem rendering_text (s t : String) :
    rendering defaults context host input [.text (s ++ t)] =
      rendering defaults context host input [.text s, .text t] :=
  rfl

theorem rendering_split (xs ys : List Node) (s t : String) :
    rendering defaults context host input (xs ++ .text (s ++ t) :: ys) =
      rendering defaults context host input (xs ++ .text s :: .text t :: ys) := by
  have h : rendering defaults context host input (.text (s ++ t) :: ys) =
      rendering defaults context host input (.text s :: .text t :: ys) := by
    rw [←List.singleton_append, rendering_append, rendering_text, ←rendering_append]
    rfl
  rw [rendering_append, h, ←rendering_append]

variable {defaults context} in
theorem textual_group {ns : List Node} {code : Code}
    (h : (group (nodes defaults ns .empty) context).1 = .ok code) : code.Textual := by
  have ⟨r, ho, hr⟩ := collects_nodes defaults context.scope ns
  rw [(hr false .empty).group.fst_eq ⟨rfl, rfl⟩ rfl] at h
  cases ho
  case error => cases h
  case ok fs _ hf =>
    cases h
    exact textual_assemble hf.sound

variable {defaults context} in
theorem textual_branches {directive : String} {ns : List Node} {r : Code × List Arm}
    (h : (group (branches defaults directive ns .empty) context).1 = .ok r) :
    r.1.Textual ∧ ∀ arm ∈ r.2, arm.body.Textual := by
  have ⟨r, q, ho, hr⟩ := collects_branches defaults directive context.scope ns
  rw [(hr false .empty).group.fst_eq ⟨rfl, rfl⟩ rfl] at h
  cases ho
  case error => cases h
  case ok r _ hb =>
    cases h
    have ⟨hf, ha⟩ := hb.sound
    exact ⟨textual_assemble hf, fun arm h => (ha arm h).body⟩

end
end Compile

namespace Eval

variable {σ α : Type} {x y : Eval σ String}

-- Runs an evaluation in a frame of its own.
def fromStart (maxDepth : Nat) (x : Eval σ α) : Meaning σ α :=
  fun store =>
    let (r, s) := x ⟨.start maxDepth, store⟩
    (r, s.store)

-- An evaluation that finds no slots leaves none.
def Unslotted (x : Eval σ α) : Prop :=
  Act.Triple (·.frame.slots = []) x fun _ s => s.frame.slots = []

theorem fromStart_congr (hx : Blind x) (m n : Nat) : fromStart m x = fromStart n x := by
  funext store
  have ⟨hr, ha⟩ := hx ⟨.start m, store⟩ ⟨.start n, store⟩ ⟨rfl, rfl⟩
  exact Prod.ext hr ha.store_eq

theorem fromStart_concat (hx : Blind x) (hy : Blind y) (hs : Unslotted x) (k m n : Nat) :
    fromStart k (Meaning.concat x y) = Meaning.concat (fromStart m x) (fromStart n y) := by
  rw [fromStart_congr hx m k]
  funext store
  have hs := hs ⟨.start k, store⟩
  simp only [fromStart, Meaning.concat, bind, Act.andThen]
  generalize x ⟨.start k, store⟩ = r at hs
  have ⟨r, s⟩ := r
  cases r
  case error => rfl
  case ok first =>
    have ⟨hr, ha⟩ := hy s ⟨.start n, s.store⟩ ⟨hs first s rfl rfl, rfl⟩
    simp only at hr ha ⊢
    generalize y s = r at hr ha
    generalize y ⟨.start n, s.store⟩ = r' at hr ha
    have ⟨r, s₁⟩ := r
    have ⟨r', s₁'⟩ := r'
    cases hr
    cases r <;> exact congrArg _ ha.store_eq

theorem blind_output (host : Host σ) (input : Input) (c : Code) : Blind (output host input c) :=
  (blind_eval host input c).bind fun _ => .pure

theorem unslotted_output {defaults : LoopNames} {tree : List Node} {program : Program}
    (h : compile defaults tree = .ok program) (host : Host σ) (input : Input) :
    Unslotted (output host input program.body) := by
  refine Act.Triple.bind (Q := fun _ s => s.frame.slots = []) ?_ fun _ => .pure fun _ h => h
  intro s v s' hs hv
  have ⟨r, hr⟩ : ∃ r, Agrees (· = []) Value.IsText (eval host input program.body s) r :=
    ⟨_, Compile.means_of_compile h host input [] [] .nil s hs⟩
  rw [hv] at hr
  cases hr
  assumption

end Eval

namespace Program

variable {σ : Type}

def output (p : Program) (host : Host σ) (input : Input) : Meaning σ String :=
  Eval.fromStart p.maxDepth (Eval.output host input p.body)

-- Runs a rendering on given data and options. Empty objects take the place of those that are
-- undefined or null.
def onInput (host : Host σ) (data options : Value) (f : Input → Meaning σ String) :
    Meaning σ String := do
  let i ← Meaning.fresh host
  let j ← Meaning.fresh host
  f ⟨orEmpty i data, orEmpty j options⟩

theorem apply_eq_onInput (p : Program) (host : Host σ) (data options : Value) :
    p.apply host data options = onInput host data options (p.output host) := by
  funext store
  simp only [apply, onInput, output, Eval.fromStart, Eval.output, Meaning.fresh, bind, Act.andThen]
  generalize Eval.eval host _ p.body _ = r
  obtain ⟨r, s⟩ := r
  cases r <;> rfl

end Program

theorem apply_append {σ : Type} (defaults : LoopNames) (host : Host σ) (data options : Value)
    (xs ys : List Node) :
    (compile defaults (xs ++ ys)).map (·.apply host data options) = (do
      let a ← compile defaults xs
      let b ← compile defaults ys
      return Program.onInput host data options fun input =>
        Meaning.concat (a.output host input) (b.output host input)) := by
  have h := fun input => Compile.rendering_append defaults ⟨.empty, false⟩ host input xs ys
  simp only [Compile.rendering_start] at h
  cases ha : compile defaults xs <;> cases hb : compile defaults ys <;>
    cases hab : compile defaults (xs ++ ys) <;> simp only [ha, hb, hab] at h
  case ok.ok.ok a b ab =>
    have ho (input : Input) : ab.output host input =
        Meaning.concat (a.output host input) (b.output host input) := by
      have h : Eval.output host input ab.body = Meaning.concat _ _ := Except.ok.inj (h input)
      rw [Program.output, h]
      exact Eval.fromStart_concat (Eval.blind_output host input _) (Eval.blind_output host input _)
        (Eval.unslotted_output ha host input) ..
    have he : ab.apply host data options = Program.onInput host data options _ :=
      ab.apply_eq_onInput host data options
    rw [funext ho] at he
    exact congrArg Except.ok he
  all_goals cases h ⟨data, options⟩ <;> rfl

theorem map_apply_congr {σ : Type} {defaults : LoopNames} {host : Host σ} {xs ys : List Node}
    (h : ∀ input, Compile.rendering defaults ⟨.empty, false⟩ host input xs =
      Compile.rendering defaults ⟨.empty, false⟩ host input ys) (data options : Value) :
    (compile defaults xs).map (·.apply host data options) =
      (compile defaults ys).map (·.apply host data options) := by
  simp only [Compile.rendering_start] at h
  cases ha : compile defaults xs <;> cases hb : compile defaults ys <;> simp only [ha, hb] at h
  case ok.ok a b =>
    have ho (input : Input) : a.output host input = b.output host input := by
      have h : Eval.output host input a.body = _ := Except.ok.inj (h input)
      rw [Program.output, h]
      exact Eval.fromStart_congr (Eval.blind_output host input b.body) ..
    simp only [Except.map, Program.apply_eq_onInput, funext ho]
  all_goals cases h ⟨data, options⟩ <;> rfl

-- All groups give texts: those of siblings wherever they stand, the branches of a conditional, and
-- the bodies of the loops inside of them. Siblings compile if each part of them does, and they
-- render one part after the other. It does not matter how a text is cut into nodes.
theorem groups_concatenate :
    (∀ defaults context ns code,
      (Compile.group (Compile.nodes defaults ns .empty) context).1 = .ok code → code.Textual) ∧
    (∀ defaults context directive ns body arms,
      (Compile.group (Compile.branches defaults directive ns .empty) context).1 = .ok (body, arms) →
        body.Textual ∧ ∀ arm ∈ arms, arm.body.Textual) ∧
    ∀ (σ : Type) (host : Host σ) defaults,
      (∀ context input xs ys,
        Compile.rendering defaults context host input (xs ++ ys) = (do
          let x ← Compile.rendering defaults context host input xs
          let y ← Compile.rendering defaults context host input ys
          return Meaning.concat x y)) ∧
      (∀ data options xs ys,
        (compile defaults (xs ++ ys)).map (·.apply host data options) = (do
          let a ← compile defaults xs
          let b ← compile defaults ys
          return Program.onInput host data options fun input =>
            Meaning.concat (a.output host input) (b.output host input))) ∧
      (∀ context input xs ys s t,
        Compile.rendering defaults context host input (xs ++ .text (s ++ t) :: ys) =
          Compile.rendering defaults context host input (xs ++ .text s :: .text t :: ys)) ∧
      ∀ data options xs ys s t,
        (compile defaults (xs ++ .text (s ++ t) :: ys)).map (·.apply host data options) =
          (compile defaults (xs ++ .text s :: .text t :: ys)).map (·.apply host data options) := by
  refine ⟨fun _ _ _ _ => Compile.textual_group, fun _ _ _ _ _ _ => Compile.textual_branches,
    fun σ host defaults =>
      ⟨fun context input => Compile.rendering_append defaults context host input,
        apply_append defaults host, ?_, ?_⟩⟩
  · exact fun context input => Compile.rendering_split defaults context host input
  · exact fun data options xs ys s t =>
      map_apply_congr (fun input => Compile.rendering_split defaults _ host input xs ys s t) ..

theorem groups_concatenate_nested :
    (∃ code,
      (Compile.group (Compile.nodes .default [.text "a", .tag "=" "v" [],
        .tag "each" "(i, x) v" [.tag "=" "x" [], .tag "tmpl" "part" []]] .empty)
        ⟨⟨[⟨"k", "v"⟩], 1, 1⟩, true⟩).1 = .ok code ∧ code.Textual) ∧
    ∃ body arms,
      (Compile.group (Compile.branches .default "" [.tag "=" "v" [],
        .tag "else" "k" [.tag "=" "k" []], .text "b", .tag "else" "" []] .empty)
        ⟨⟨[⟨"k", "v"⟩], 1, 1⟩, true⟩).1 = .ok (body, arms) ∧
        body.Textual ∧ ∀ arm ∈ arms, arm.body.Textual := by
  have ok {α : Type} {x : Except CompileError α} (h : x.isOk = true) : ∃ a, x = .ok a := by
    cases x
    case error => cases h
    case ok a => exact ⟨a, rfl⟩
  have ⟨code, hc⟩ := ok (x := (Compile.group (Compile.nodes .default [.text "a", .tag "=" "v" [],
    .tag "each" "(i, x) v" [.tag "=" "x" [], .tag "tmpl" "part" []]] .empty)
    ⟨⟨[⟨"k", "v"⟩], 1, 1⟩, true⟩).1) (by decide +kernel)
  have ⟨r, hr⟩ := ok (x := (Compile.group (Compile.branches .default "" [.tag "=" "v" [],
    .tag "else" "k" [.tag "=" "k" []], .text "b", .tag "else" "" []] .empty)
    ⟨⟨[⟨"k", "v"⟩], 1, 1⟩, true⟩).1) (by decide +kernel)
  exact ⟨⟨code, hc, groups_concatenate.1 _ _ _ _ hc⟩, r.1, r.2, hr,
    groups_concatenate.2.1 _ _ _ _ _ _ hr⟩

end Stencil
