import Mathlib.Data.List.Induction
import Stencil.Project.Report

-- The records of diagnostics that are printed for other programs can be told apart.
namespace Stencil

namespace CompileFault

def codes : List String :=
  ["invalid-each", "invalid-tmpl", "missing-condition", "misplaced-else", "unknown-kind",
    "invalid-expression"]

theorem code_mem_codes (fault : CompileFault) : fault.code ∈ codes := by
  cases fault <;> simp [code, codes]

end CompileFault

namespace Diagnostic

def codes : List String :=
  "load" :: "render" :: CompileFault.codes

-- Reads a record backwards, up to a colon that has no backslash before it. Gives the message with
-- its colons as they were, and what is left of the record.
def splitMessage (message : List Char) : List Char → Option (List Char × List Char)
  | [] => none
  | ':' :: '\\' :: cs => splitMessage (':' :: message) cs
  | ':' :: cs => some (message, cs)
  | c :: cs => splitMessage (c :: message) cs

-- The diagnostic that a record is about.
def ofMachine? (record : String) : Option Diagnostic := do
  let (message, rest) ← splitMessage [] record.toList.reverse
  let code := rest.takeWhile (· != ':')
  let place := (rest.dropWhile (· != ':')).drop ":error:".toList.length
  return ⟨.ofList place.reverse, .ofList code.reverse, .ofList message⟩

variable {cs rest message : List Char} {c : Char}

theorem splitMessage_separator (h : rest.head? ≠ some '\\') :
    splitMessage message (':' :: rest) = some (message, rest) := by
  cases rest
  case nil => rfl
  case cons c cs =>
    have hc : c ≠ '\\' := by simpa using h
    simp [splitMessage, hc]

theorem splitMessage_cons (h : c ≠ ':') :
    splitMessage message (c :: cs) = splitMessage (c :: message) cs := by
  simp [splitMessage, h]

theorem escapeColons_snoc (cs : List Char) (c : Char) :
    escapeColons (cs ++ [c]) = escapeColons cs ++ if c = ':' then ['\\', ':'] else [c] := by
  simp [escapeColons]

-- The induction is on the message from its end, as it is read. A backslash of the message itself
-- that stands before a colon is left over once the escaped colon has been read.
theorem splitMessage_escapeColons (h : rest.head? ≠ some '\\') (cs message : List Char) :
    splitMessage message ((escapeColons cs).reverse ++ ':' :: rest) =
      some (cs ++ message, rest) := by
  induction cs using List.reverseRecOn generalizing message
  case nil => exact splitMessage_separator h
  case append_singleton cs c hi =>
    rw [escapeColons_snoc, List.append_assoc, List.singleton_append, ←hi]
    split
    case isTrue hc =>
      subst hc
      simp [splitMessage]
    case isFalse hc => simp [splitMessage_cons hc]

-- A code has neither colons nor backslashes in it.
def IsPlain (code : String) : Prop :=
  ∀ c ∈ code.toList, c ≠ ':' ∧ c ≠ '\\'

theorem isPlain_of_mem_codes : ∀ code ∈ codes, IsPlain code := by
  simp [codes, CompileFault.codes, IsPlain]

-- The message is read first, up to the last colon that is not escaped, and the code up to the colon
-- before that one. All that is left is the place, whatever it is.
theorem ofMachine?_machine (d : Diagnostic) (h : IsPlain d.code) :
    ofMachine? d.machine = some d := by
  obtain ⟨place, code, message⟩ := d
  have hc : ∀ c ∈ code.toList.reverse, c ≠ ':' ∧ c ≠ '\\' :=
    fun c hm => h c (List.mem_reverse.mp hm)
  have hp : ∀ c ∈ code.toList.reverse, (c != ':') = true :=
    fun c hm => bne_iff_ne.mpr (hc c hm).1
  obtain ⟨rest, hr⟩ : ∃ rest, rest =
    code.toList.reverse ++ (":error:".toList.reverse ++ place.toList.reverse) := ⟨_, rfl⟩
  have hm : (machine ⟨place, code, message⟩).toList.reverse =
      (escapeColons message.toList).reverse ++ ':' :: rest := by
    simp [machine, hr]
  have hh : rest.head? ≠ some '\\' := by
    rw [hr]
    generalize code.toList.reverse = cs at hc
    cases cs
    case nil => simp
    case cons c cs => simpa using (hc c (.head _)).2
  have ht : rest.takeWhile (· != ':') = code.toList.reverse := by
    rw [hr, List.takeWhile_append_of_pos hp]
    simp
  have hd : rest.dropWhile (· != ':') = ":error:".toList.reverse ++ place.toList.reverse := by
    rw [hr, List.dropWhile_append_of_pos hp]
    simp
  simp only [ofMachine?, hm, splitMessage_escapeColons hh, Option.bind_eq_bind, Option.bind_some,
    ht, hd, List.append_nil]
  simp

theorem eq_of_machine_eq {d d' : Diagnostic} (h : d.code ∈ codes) (h' : d'.code ∈ codes)
    (hm : d.machine = d'.machine) : d = d' := by
  have hd := ofMachine?_machine d (isPlain_of_mem_codes _ h)
  have hd' := ofMachine?_machine d' (isPlain_of_mem_codes _ h')
  exact Option.some.inj (hd.symm.trans (hm ▸ hd'))

end Diagnostic

-- What a run reports: a file without a template, or an entry that was not rendered.
inductive Report
  | failure (path : String) (e : Failure)
  | renderError (entry : String) (e : RenderError)

namespace Report

def diagnostic : Report → Diagnostic
  | failure path e => .ofFailure path e
  | renderError entry e => .ofRenderError entry e

def print (f : Format) : Report → Printed → Printed
  | failure path e => f.failure path e
  | renderError entry e => f.renderError entry e

theorem code_mem_codes (r : Report) : r.diagnostic.code ∈ Diagnostic.codes := by
  cases r
  case failure path e =>
    cases e
    case compile e => exact .tail _ (.tail _ e.fault.code_mem_codes)
    all_goals exact .head _
  case renderError => exact .tail _ (.head _)

theorem print_machine (r : Report) (p : Printed) :
    r.print .machine p = p.outLine r.diagnostic.machine := by
  cases r <;> rfl

theorem record_eq {r : Report} {p : Printed} {record : String}
    (h : r.print .machine p = p.out record) : record = r.diagnostic.machine ++ "\n" := by
  rw [print_machine] at h
  have h := congrArg Printed.output h
  exact (String.append_right_inj _).mp h.symm

end Report

-- Diagnostics with the same record are the same, whatever texts they are made of. So are those of
-- two reports for which the same is printed, wherever it is printed.
theorem records_decode_uniquely :
    (∀ d d' : Diagnostic, d.code ∈ Diagnostic.codes → d'.code ∈ Diagnostic.codes →
      d.machine = d'.machine → d.place = d'.place ∧ d.code = d'.code ∧ d.message = d'.message) ∧
    ∀ (r r' : Report) (p p' : Printed) (record : String),
      r.print .machine p = p.out record → r'.print .machine p' = p'.out record →
      r.diagnostic = r'.diagnostic := by
  refine ⟨fun d d' hd hd' hm => ?_, fun r r' p p' record h h' => ?_⟩
  case refine_1 =>
    cases Diagnostic.eq_of_machine_eq hd hd' hm
    exact ⟨rfl, rfl, rfl⟩
  case refine_2 =>
    have hr : r.diagnostic.machine ++ "\n" = r'.diagnostic.machine ++ "\n" :=
      (Report.record_eq h).symm.trans (Report.record_eq h')
    exact Diagnostic.eq_of_machine_eq r.code_mem_codes r'.code_mem_codes
      ((String.append_left_inj _).mp hr)

-- Two errors with one text, in an entry whose name looks like a record.
theorem records_decode_uniquely_alike :
    let d : Diagnostic := ⟨"a:error:load:b", "render", "c\\: is not a function"⟩
    let r : Report := .renderError "a:error:load:b" (.custom "c\\: is not a function")
    let r' : Report := .renderError "a:error:load:b" (.notCallable "c\\:")
    let p : Printed := ⟨"x\n", ""⟩
    let record := "a:error:load:b:error:render:c\\\\: is not a function\n"
    (d.code ∈ Diagnostic.codes ∧ d.machine = r'.diagnostic.machine ∧
      d.message = r'.diagnostic.message) ∧
    r.print .machine .nothing = Printed.nothing.out record ∧ r'.print .machine p = p.out record ∧
    r.diagnostic = r'.diagnostic := by
  have hd : "render" ∈ Diagnostic.codes := by decide
  have h := records_decode_uniquely.1 ⟨"a:error:load:b", "render", "c\\: is not a function"⟩
    (.ofRenderError "a:error:load:b" (.notCallable "c\\:")) hd hd rfl
  have h' := records_decode_uniquely.2
    (.renderError "a:error:load:b" (.custom "c\\: is not a function"))
    (.renderError "a:error:load:b" (.notCallable "c\\:")) .nothing ⟨"x\n", ""⟩
    "a:error:load:b:error:render:c\\\\: is not a function\n" rfl rfl
  exact ⟨⟨hd, rfl, h.2.2⟩, rfl, rfl, h'⟩

end Stencil
