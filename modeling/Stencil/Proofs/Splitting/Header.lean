import Stencil.Proofs.Splitting.Spaced

-- The contents of directives are read as they are written.
namespace Stencil

open Token (Gap)

-- How the content of a sub-template directive is written, and the data, the options and the
-- selector that it gives.
inductive TmplHeader.Written : List Char → Option Expr → Option Expr → Expr → Prop
  | both {d o s data options rest} :
    Source d data → Source o options → Source s rest →
    Written ('(' :: (data ++ ',' :: (options ++ ')' :: rest))) (some d) (some o) s
  | data {d s data rest} :
    Source d data → Source s rest → startsBlank rest = true →
    Written ('(' :: (data ++ ')' :: rest)) (some d) none s
  | empty {s rest} (gap : Gap) :
    Source s rest → Written ('(' :: (gap.1 ++ ')' :: rest)) none none s
  | group {s selector} : Source s selector → Written ('(' :: (selector ++ [')'])) none none s
  | bare {s selector} :
    Source s selector → (trim selector).head? ≠ some '(' → Written selector none none s

-- How the content of a loop directive is written, and the names and the container that it gives.
inductive EachHeader.Written (defaults : LoopNames) : List Char → LoopNames → Expr → Prop
  | pair {k v s key value rest} :
    Named k key → Named v value → Source s rest →
    Written defaults ('(' :: (key ++ ',' :: (value ++ ')' :: rest))) ⟨k, v⟩ s
  | key {k s key rest} :
    Named k key → Source s rest → startsBlank rest = true →
    Written defaults ('(' :: (key ++ ')' :: rest)) { defaults with key := k } s
  | bare {s container} :
    Source s container → (trim container).head? ≠ some '(' → Written defaults container defaults s

def Reads (cs : List Char) (e : Expr) : Prop :=
  Expr.read cs = .ok e

variable {content text inner rest : List Char} {d o : Option Expr} {e s : Expr}

theorem Expr.trim_ne_nil (h : Expr.read content = .ok e) : trim content ≠ [] := by
  have ⟨_, _, ht, _⟩ := Expr.trim_eq_cons h
  exact ht ▸ nofun

theorem Source.trim_ne_nil (h : Source e text) : trim text ≠ [] :=
  Expr.trim_ne_nil h.read

theorem Source.reads_trim (h : Source e text) : Reads (trim text) e :=
  Expr.read_trim h.read

namespace TmplHeader

-- A single argument is one only if a blank follows it.
theorem read_parens (h : Enclosable inner) (hr : trim rest ≠ [])
    (hb : (arguments inner).length = 1 → startsBlank rest = true) :
    read ('(' :: (inner ++ ')' :: rest)) = ofArguments (arguments inner) (trim rest) := by
  simp only [read, trim_parens, h.enclosed?_eq, trim_trimEnd, startsBlank_trimEnd hr]
  split
  case h_1 ht => exact absurd ht hr
  case h_2 ht _ => exact absurd ht hr
  case h_3 ha _ => rw [ha, if_pos (hb (ha ▸ rfl))]
  case h_4 => rfl

theorem arguments_eq (sources : List (List Char)) (hne : sources ≠ [])
    (h : ∀ cs ∈ sources, ∃ e, Expr.read cs = .ok e) :
    arguments ([','].intercalate sources) = sources.map trim := by
  have ht : trim ([','].intercalate sources) ≠ [] := by
    intro ht
    cases sources
    case nil => exact hne rfl
    case cons cs sources =>
      have ⟨e, he⟩ := h cs (.head _)
      refine Expr.trim_ne_nil he (trim_eq_nil_iff.mpr fun c hm => trim_eq_nil_iff.mp ht c ?_)
      cases sources <;> simp [List.intercalate, hm]
  rw [arguments, Expr.splitOutside_sources (.inl rfl) hne h, if_neg (by simpa using ht)]

theorem read_sources (sources : List (List Char)) (hne : sources ≠ []) (hl : sources.length ≤ 2)
    (h : ∀ cs ∈ sources, ∃ e, Expr.read cs = .ok e) (hs : Expr.read rest = .ok s)
    (hb : sources.length = 1 → startsBlank rest = true) :
    read ('(' :: ([','].intercalate sources ++ ')' :: rest)) =
      .ok ⟨(sources.map trim)[0]?, (sources.map trim)[1]?, trim rest⟩ := by
  have he : Enclosable ([','].intercalate sources) := .intercalate fun cs hm =>
    have ⟨_, hr⟩ := h cs hm
    Expr.enclosable hr
  have hn : (sources.map trim).any List.isEmpty = false := by
    rw [List.any_eq_false, List.forall_mem_map]
    intro cs hm
    have ⟨_, hr⟩ := h cs hm
    simpa using Expr.trim_ne_nil hr
  have ha := arguments_eq sources hne h
  rw [read_parens he (Expr.trim_ne_nil hs) (by simpa [ha] using hb), ha, ofArguments, hn,
    if_neg (by simpa using hl)]
  rfl

theorem read_group (h : Expr.read inner = .ok s) :
    read ('(' :: (inner ++ [')'])) = .ok (ofSelector ('(' :: (inner ++ [')']))) := by
  have ha := arguments_eq [inner] nofun (by simp [h])
  rw [List.intercalate_singleton] at ha
  have ht : trim ('(' :: (inner ++ [')'])) = '(' :: (inner ++ [')']) := trim_parens inner []
  simp only [read, ht, (Expr.enclosable h).enclosed?_eq, ha]
  rfl

theorem read_of_bare (hs : trim content ≠ []) (h : (trim content).head? ≠ some '(') :
    read content = .ok (ofSelector (trim content)) := by
  simp only [read]
  generalize trim content = cs at *
  split
  case h_1 => exact absurd rfl hs
  case h_2 => exact absurd rfl h
  case h_3 => rfl

theorem Written.read_eq (h : Written content d o s) (ht : Spaced content text) :
    ∃ header, read text = .ok header ∧ Option.Rel Reads header.data d ∧
      Option.Rel Reads header.options o ∧ Reads header.selector s := by
  have hr : read text = read content := by simp only [read, ht.trim_eq]
  rw [hr]
  cases h
  case both data options rest hd ho hs =>
    have hr := read_sources [data, options] (by simp) (Nat.le_refl 2) (by simp [hd.read, ho.read])
      hs.read (by simp)
    simp only [List.intercalate_cons_cons, List.intercalate_singleton, List.append_assoc,
      List.cons_append, List.nil_append] at hr
    exact ⟨_, hr, .some hd.reads_trim, .some ho.reads_trim, hs.reads_trim⟩
  case data data rest hd hb hs =>
    have hr := read_sources [data] (by simp) (Nat.le_succ 1) (by simp [hd.read]) hs.read fun _ => hb
    rw [List.intercalate_singleton] at hr
    exact ⟨_, hr, .some hd.reads_trim, .none, hs.reads_trim⟩
  case empty rest gap hs =>
    have ha : arguments gap.1 = [] :=
      if_pos (List.isEmpty_iff.mpr (trim_eq_nil_iff.mpr fun _ => isBlank_of_mem gap))
    have he : Enclosable gap.1 :=
      .of_inert fun c hm => isInert_of_isBlank (isBlank_of_mem gap hm)
    have hr := read_parens he hs.trim_ne_nil (by simp [ha])
    rw [ha] at hr
    exact ⟨_, hr, .none, .none, hs.reads_trim⟩
  case group selector hs =>
    exact ⟨_, read_group hs.read, .none, .none, Expr.read_parenthesized hs.read⟩
  case bare hh hs =>
    exact ⟨_, read_of_bare hs.trim_ne_nil hh, .none, .none, hs.reads_trim⟩

end TmplHeader

namespace EachHeader

variable {defaults names : LoopNames} {k v : String} {key value : List Char}

theorem span_comma (h : Named k key) (rest : List Char) (hr : Token.Ends (· != ',') rest) :
    (key ++ rest).takeWhile (· != ',') = key ∧ (key ++ rest).dropWhile (· != ',') = rest := by
  have hc : key.all (· != ',') = true := by
    rw [List.all_eq_true]
    intro c hm
    rw [bne_iff_ne]
    rintro rfl
    exact absurd (h.isInert ',' hm) (by decide)
  exact Prod.mk.inj (hr.span_append hc)

theorem names?_key (defaults : LoopNames) (h : Named k key) :
    names? defaults key = some { defaults with key := k } := by
  have ⟨ht, hd⟩ := span_comma h [] rfl
  rw [List.append_nil] at ht hd
  simp [names?, ht, hd, h.trim_eq, h.1]

theorem names?_pair (defaults : LoopNames) (hk : Named k key) (hv : Named v value) :
    names? defaults (key ++ ',' :: value) = some ⟨k, v⟩ := by
  have ⟨ht, hd⟩ := span_comma hk (',' :: value) rfl
  simp [names?, ht, hd, hk.trim_eq, hv.trim_eq, hk.1, hv.1]

-- Names are such only if there are two of them or a blank follows.
theorem read_parens (h : Enclosable inner) (hn : names? defaults inner = some names)
    (hr : trim rest ≠ [])
    (hb : 1 < (splitOutside [','] inner).length ∨ startsBlank rest = true) :
    read defaults ('(' :: (inner ++ ')' :: rest)) = .ok ⟨names, trim rest⟩ := by
  simp only [read, trim_parens, h.enclosed?_eq, hn, trim_trimEnd, startsBlank_trimEnd hr]
  rcases hb with hb | hb <;> simp [hb]

theorem read_of_bare (hs : trim content ≠ []) (h : (trim content).head? ≠ some '(') :
    read defaults content = .ok ⟨defaults, trim content⟩ := by
  simp only [read]
  generalize trim content = cs at *
  split
  case h_1 => exact absurd rfl hs
  case h_2 => exact absurd rfl h
  case h_3 => rfl

theorem Written.read_eq (h : Written defaults content names s) (ht : Spaced content text) :
    ∃ container, read defaults text = .ok ⟨names, container⟩ ∧ Reads container s := by
  have hr : read defaults text = read defaults content := by simp only [read, ht.trim_eq]
  rw [hr]
  cases h
  case pair k v key value rest hk hv hs =>
    have hc : [','].intercalate [key, value] = key ++ ',' :: value := by
      simp [List.intercalate_cons_cons]
    have hp : ∀ piece ∈ [key, value], ∀ c ∈ piece, isInert c = true := by
      simpa using ⟨hk.isInert, hv.isInert⟩
    have he : Enclosable ([','].intercalate [key, value]) :=
      .intercalate fun piece hm => .of_inert (hp piece hm)
    have hl : splitOutside [','] ([','].intercalate [key, value]) = [key, value] :=
      splitOutside_inert (by simp) hp
    rw [hc] at he hl
    have hr := read_parens he (names?_pair defaults hk hv) hs.trim_ne_nil (.inl (by simp [hl]))
    rw [List.append_assoc] at hr
    exact ⟨_, hr, hs.reads_trim⟩
  case key k key rest hk hb hs =>
    have hr := read_parens (.of_inert hk.isInert) (names?_key defaults hk) hs.trim_ne_nil (.inr hb)
    exact ⟨_, hr, hs.reads_trim⟩
  case bare hh hs =>
    exact ⟨_, read_of_bare hs.trim_ne_nil hh, hs.reads_trim⟩

end EachHeader

namespace Compile

variable {directive : String} {given : Option (List Char)}

theorem check_eq_ok {α : Type} {x : Except CompileFault α} {a : α} (h : x = .ok a)
    (context : Context) : check directive x context = (.ok a, context) := by
  rw [h]
  rfl

theorem argument_eq (h : Option.Rel Reads given d) (missing : Code) (context : Context) :
    argument directive given missing context =
      (.ok (d.elim missing (·.toCode context.scope)), context) := by
  cases h
  case none => rfl
  case some h => exact expression_eq h context

theorem invocation_eq (h : TmplHeader.Written content d o s) (ht : Spaced content text)
    (context : Context) :
    invocation directive text context =
      (.ok (.invoke (d.elim (passedData context.scope) (·.toCode context.scope))
        (o.elim .options (·.toCode context.scope)) (s.toCode context.scope)
        (ownName (s.toCode context.scope))), context) := by
  have ⟨header, hr, hd, ho, hs⟩ := h.read_eq ht
  have hp : scope context = (.ok context.scope, context) := rfl
  rw [invocation, Act.bind_apply_ok (check_eq_ok hr context), Act.bind_apply_ok hp,
    Act.bind_apply_ok (argument_eq hd _ _), Act.bind_apply_ok (argument_eq ho _ _),
    Act.bind_apply_ok (expression_eq hs context)]
  rfl

end Compile

-- Whatever blanks there are around the parts, a sub-template directive gives the data, the options
-- and the selector that stand in it, and a loop binds the names and runs over the container.
theorem directives_read_as_written {content text : List Char} (h : Spaced content text)
    (defaults : LoopNames) (children : List Node) (context : Compile.Context) :
    (∀ d o s, TmplHeader.Written content d o s →
      Compile.node defaults (.tag "tmpl" (.ofList text) children) context =
        (.ok (.text (.invoke
          (d.elim (Compile.passedData context.scope) (·.toCode context.scope))
          (o.elim .options (·.toCode context.scope)) (s.toCode context.scope)
          (Compile.ownName (s.toCode context.scope)))), context)) ∧
    ∀ names s, EachHeader.Written defaults content names s →
      Compile.node defaults (.tag "each" (.ofList text) children) context =
        (do
          let body ← Compile.inLoop names (Compile.group (Compile.nodes defaults children .empty))
          return .text (.each context.scope.bufferTemp context.scope.slotCount names.key
            names.value (s.toCode context.scope) body) : Compile Compile.Fragment) context := by
  simp only [Compile.node, String.toList_ofList]
  constructor
  case left =>
    intro d o s hw
    rw [Act.bind_apply_ok (Compile.invocation_eq hw h context)]
    rfl
  case right =>
    intro names s hw
    obtain ⟨container, hr, hs⟩ := hw.read_eq h
    rw [Act.bind_apply_ok (Compile.check_eq_ok hr context),
      Act.bind_apply_ok (Compile.expression_eq hs context)]
    rfl

theorem directives_read_as_written_spaced :
    let d : Expr := .index (.name "rows") (.literal (.string ",)"))
    let o : Expr := .array [.name "a", .literal (.string "](")]
    let s : Expr := .call (.name "pick") [.name "x", .name "y"]
    let context : Compile.Context := ⟨.empty, false⟩
    TmplHeader.Written "( rows[',)'],[a, ']('] )pick(x, y)".toList (some d) (some o) s ∧
    Compile.node .default (.tag "tmpl" "\t( rows[',)'],[a, ']('] )pick(x, y) " []) context =
      (.ok (.text (.invoke (d.toCode .empty) (o.toCode .empty) (s.toCode .empty) none)),
        context) ∧
    EachHeader.Written .default "(k ,\nv)pick(x, y)".toList ⟨"k", "v"⟩ s ∧
    (Compile.node .default (.tag "each" "(k ,\nv)pick(x, y)" [.text "t"]) context).1 =
      .ok (.text (.each Scope.empty.bufferTemp 0 "k" "v" (s.toCode .empty) (.text "t"))) := by
  intro d o s context
  have tight {cs : List Char} : Spaced cs ([] ++ (cs ++ [])) := .intro ⟨[], rfl⟩ ⟨[], rfl⟩
  have hd : Source d " rows[',)']".toList :=
    ⟨"rows[',)']".toList, rfl, .intro ⟨[' '], rfl⟩ ⟨[], rfl⟩⟩
  have ho : Source o "[a, ']('] ".toList :=
    ⟨"[a, ']('] ".toList, rfl, tight⟩
  have hs : Source s "pick(x, y)".toList :=
    ⟨"pick(x, y)".toList, rfl, tight⟩
  have ht : TmplHeader.Written "( rows[',)'],[a, ']('] )pick(x, y)".toList (some d) (some o) s :=
    .both hd ho hs
  have hk : Named "k" "k ".toList := ⟨rfl, .intro ⟨[], rfl⟩ ⟨[' '], rfl⟩⟩
  have hv : Named "v" "\nv".toList := ⟨rfl, .intro ⟨['\n'], rfl⟩ ⟨[], rfl⟩⟩
  have he : EachHeader.Written .default "(k ,\nv)pick(x, y)".toList ⟨"k", "v"⟩ s :=
    .pair hk hv hs
  have hn := (directives_read_as_written (.intro ⟨['\t'], rfl⟩ ⟨[' '], rfl⟩) .default [] context).1
    _ _ _ ht
  have hn' := (directives_read_as_written tight .default [.text "t"] context).2 _ _ he
  exact ⟨ht, hn, he, congrArg Prod.fst hn'⟩

end Stencil
