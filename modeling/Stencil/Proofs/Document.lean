import Stencil.Tree.Json

-- Which documents are templates, and how a template is written that has been read.
namespace Stencil
namespace Json

inductive IsContent : Json → Prop
  | string {s} : IsContent (.string s)
  | null : IsContent .null

-- A node is a string, or an array of a kind, a content and nodes. The content may be missing if no
-- nodes follow it.
inductive IsNode : Json → Prop
  | text {s} : IsNode (.string s)
  | bare {kind} : IsNode (.array [.string kind])
  | directive {kind content children} :
    IsContent content → (∀ child ∈ children, IsNode child) →
    IsNode (.array (.string kind :: content :: children))

inductive IsTree : Json → Prop
  | intro {nodes} : (∀ node ∈ nodes, IsNode node) → IsTree (.array nodes)

mutual

-- A node whose directives have an empty content where it was missing or null.
def filled : Json → Json
  | .array [kind] => .array [kind, .string ""]
  | .array (kind :: .null :: children) => .array (kind :: .string "" :: filledAll children)
  | .array (kind :: content :: children) => .array (kind :: content :: filledAll children)
  | j => j

def filledAll : List Json → List Json
  | [] => []
  | j :: js => j.filled :: filledAll js

end

def filledTree : Json → Json
  | .array nodes => .array (filledAll nodes)
  | j => j

end Json

namespace Node

open Json

variable {j : Json} {js : List Json} {n : Node} {ns : List Node}

theorem listOfJson_cons_eq_ok_iff :
    listOfJson (j :: js) = .ok ns ↔
      ∃ m ms, ofJson j = .ok m ∧ listOfJson js = .ok ms ∧ m :: ms = ns := by
  simp only [listOfJson]
  cases ofJson j
  case error => simp
  case ok => cases listOfJson js <;> simp

-- The children of a directive are read before the directive.
theorem ofJson_directive_eq_ok_iff {kind s : String} {content : Json}
    (hc : content = .string s ∨ content = .null ∧ s = "") :
    ofJson (.array (.string kind :: content :: js)) = .ok n ↔
      ∃ ns, listOfJson js = .ok ns ∧ .tag kind s ns = n := by
  rcases hc with rfl | ⟨rfl, rfl⟩
  all_goals
    simp only [ofJson]
    cases listOfJson js <;> simp

mutual

theorem ofJson_toJson : (n : Node) → ofJson n.toJson = .ok n
  | .text _ => rfl
  | .tag _ _ children => (ofJson_directive_eq_ok_iff (.inl rfl)).mpr
      ⟨children, listOfJson_listToJson children, rfl⟩

theorem listOfJson_listToJson : (ns : List Node) → listOfJson (listToJson ns) = .ok ns
  | [] => rfl
  | n :: ns => listOfJson_cons_eq_ok_iff.mpr
      ⟨n, ns, ofJson_toJson n, listOfJson_listToJson ns, rfl⟩

end

-- What is read is a node, and what is written for it has all contents.
mutual

theorem exact_of_ofJson : (j : Json) → (n : Node) → ofJson j = .ok n →
    j.IsNode ∧ n.toJson = j.filled
  | .string _, _, h => by
    cases h
    exact ⟨.text, rfl⟩
  | .array [.string _], _, h => by
    cases h
    exact ⟨.bare, rfl⟩
  | .array (.string kind :: .string s :: children), _, h => by
    have ⟨ns, hn, ht⟩ := (ofJson_directive_eq_ok_iff (.inl rfl)).mp h
    have ⟨hc, hj⟩ := exact_of_listOfJson children ns hn
    subst ht
    exact ⟨.directive .string hc, by simp [toJson, filled, hj]⟩
  | .array (.string kind :: .null :: children), _, h => by
    have ⟨ns, hn, ht⟩ := (ofJson_directive_eq_ok_iff (.inr ⟨rfl, rfl⟩)).mp h
    have ⟨hc, hj⟩ := exact_of_listOfJson children ns hn
    subst ht
    exact ⟨.directive .null hc, by simp [toJson, filled, hj]⟩
  | .null, _, h | .bool _, _, h | .number _, _, h | .object _, _, h | .array [], _, h => by cases h

theorem exact_of_listOfJson : (js : List Json) → (ns : List Node) → listOfJson js = .ok ns →
    (∀ j ∈ js, j.IsNode) ∧ listToJson ns = filledAll js
  | [], _, h => by
    cases h
    exact ⟨nofun, rfl⟩
  | j :: js, _, h => by
    have ⟨m, ms, hm, hs, hn⟩ := listOfJson_cons_eq_ok_iff.mp h
    have ⟨hj, hf⟩ := exact_of_ofJson j m hm
    have ⟨hjs, hfs⟩ := exact_of_listOfJson js ms hs
    subst hn
    exact ⟨List.forall_mem_cons.mpr ⟨hj, hjs⟩, by simp [listToJson, filledAll, hf, hfs]⟩

end

theorem exists_listOfJson (h : ∀ j ∈ js, ∃ n, ofJson j = .ok n) : ∃ ns, listOfJson js = .ok ns := by
  induction js
  case nil => exact ⟨[], rfl⟩
  case cons j js hi =>
    have ⟨⟨n, hn⟩, hs⟩ := List.forall_mem_cons.mp h
    have ⟨ns, hns⟩ := hi hs
    exact ⟨n :: ns, listOfJson_cons_eq_ok_iff.mpr ⟨n, ns, hn, hns, rfl⟩⟩

theorem exists_ofJson (h : j.IsNode) : ∃ n, ofJson j = .ok n := by
  induction h
  case text s => exact ⟨.text s, rfl⟩
  case bare kind => exact ⟨.tag kind "" [], rfl⟩
  case directive kind content children hc _ hi =>
    have ⟨ns, hn⟩ := exists_listOfJson hi
    cases hc
    case string s =>
      exact ⟨.tag kind s ns, (ofJson_directive_eq_ok_iff (.inl rfl)).mpr ⟨ns, hn, rfl⟩⟩
    case null =>
      exact ⟨.tag kind "" ns, (ofJson_directive_eq_ok_iff (.inr ⟨rfl, rfl⟩)).mpr ⟨ns, hn, rfl⟩⟩

theorem exact_of_treeOfJson (h : treeOfJson j = .ok ns) :
    j.IsTree ∧ treeToJson ns = j.filledTree := by
  cases j
  case array js =>
    have ⟨hj, hf⟩ := exact_of_listOfJson js ns h
    exact ⟨.intro hj, congrArg Json.array hf⟩
  all_goals cases h

-- A template that is written is read again. A document is read if it is a tree, and is written
-- again as it was, but for the contents that were missing or null.
theorem treeOfJson_exact :
    (∀ tree, treeOfJson (treeToJson tree) = .ok tree) ∧
    ∀ j : Json, ((∃ tree, treeOfJson j = .ok tree) ↔ j.IsTree) ∧
      ∀ tree, treeOfJson j = .ok tree → treeToJson tree = j.filledTree := by
  refine ⟨listOfJson_listToJson, fun j => ⟨⟨?mp, ?mpr⟩, ?filled⟩⟩
  case mp =>
    rintro ⟨tree, h⟩
    exact (exact_of_treeOfJson h).1
  case mpr =>
    rintro ⟨h⟩
    exact exists_listOfJson fun node hm => exists_ofJson (h node hm)
  case filled =>
    intro tree h
    exact (exact_of_treeOfJson h).2

theorem treeOfJson_exact_else :
    ∃ tree, treeOfJson (.array [.array [.string "if", .string "x", .string "y",
          .array [.string "else"], .array [.string "=", .null, .string "z"]]]) = .ok tree ∧
      treeToJson tree = .array [.array [.string "if", .string "x", .string "y",
        .array [.string "else", .string ""],
        .array [.string "=", .string "", .string "z"]]] := by
  have ⟨tree, h⟩ : ∃ tree, treeOfJson (.array [.array [.string "if", .string "x", .string "y",
      .array [.string "else"], .array [.string "=", .null, .string "z"]]]) = .ok tree :=
    ⟨[.tag "if" "x" [.text "y", .tag "else" "" [], .tag "=" "" [.text "z"]]], rfl⟩
  exact ⟨tree, h, (treeOfJson_exact.2 _).2 tree h⟩

end Node
end Stencil
