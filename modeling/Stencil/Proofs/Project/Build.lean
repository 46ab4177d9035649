import Stencil.Project.Build
import Stencil.Project.FileTree
import Stencil.Proofs.Project.Naming
import Stencil.Proofs.Registry.Inserts
import Stencil.Render.Native

-- What becomes of the files of a project.
namespace Stencil

namespace TemplateFile

variable {f : TemplateFile} {fs : List TemplateFile}

theorem insert_perm : (insert f fs).Perm (f :: fs) := by
  induction fs
  case nil => exact .refl _
  case cons g gs hi =>
    unfold insert
    split
    case isTrue => exact .refl _
    case isFalse => exact (hi.cons g).trans (.swap f g gs)

theorem sort_perm : (sort fs).Perm fs := by
  induction fs
  case nil => exact .refl _
  case cons f fs hi => exact insert_perm.trans (hi.cons f)

-- The template file at a path, if there is one.
def at? (settings : Settings) (entry : String × Option String) : Option TemplateFile :=
  if settings.covers entry.1 then
    (settings.templateName? entry.1).map fun name => ⟨name, entry.1, entry.2⟩
  else none

theorem find_perm (settings : Settings) (files : Files) :
    (find settings files).Perm ((files.inside settings.root).filterMap (at? settings)) :=
  sort_perm

theorem calls_of_at? {settings : Settings} {entry : String × Option String}
    (h : at? settings entry = some f) :
    ∃ stem extension, settings.Calls f.path f.name stem extension := by
  unfold at? at h
  split at h
  case isFalse => cases h
  case isTrue =>
    have ⟨name, hn, hf⟩ := Option.map_eq_some_iff.mp h
    exact hf ▸ Settings.calls_of_templateName? hn

-- What a file adds to the templates of a build, and to its failures.
def template? (names : LoopNames) (f : TemplateFile) : Option (String × Program) :=
  match Build.compileText names f.text with
  | .ok p => some (f.name, p)
  | .error _ => none

def failure? (names : LoopNames) (f : TemplateFile) : Option (String × Failure) :=
  match Build.compileText names f.text with
  | .ok _ => none
  | .error e => some (f.path, e)

end TemplateFile

namespace Build

open Registry

variable {names : LoopNames} {files : List TemplateFile} {file : TemplateFile}
  {templates : List (String × Program)} {name : String} {t : Template}

def registered (templates : List (String × Program)) : Registry Template :=
  after (inserts (templates.map fun (name, p) => (name, .compiled p)))

theorem ofFiles_concat : ofFiles names (files ++ [file]) = (ofFiles names files).add names file :=
  List.foldl_append

theorem ofFiles_eq :
    ofFiles names files =
      ⟨registered (files.filterMap (·.template? names)), files.filterMap (·.template? names),
        files.filterMap (·.failure? names)⟩ := by
  induction files using List.reverseRecOn
  case nil => rfl
  case append_singleton files file hi =>
    rw [ofFiles_concat, hi, add]
    split
    case h_1 p hp =>
      simp [TemplateFile.template?, TemplateFile.failure?, hp, registered, inserts, after,
        Change.apply]
    case h_2 e he => simp [TemplateFile.template?, TemplateFile.failure?, he]

theorem length_template?_add_length_failure? :
    (files.filterMap (·.template? names)).length + (files.filterMap (·.failure? names)).length =
      files.length := by
  induction files
  case nil => rfl
  case cons file files hi =>
    cases h : compileText names file.text <;>
      simp only [List.filterMap_cons, TemplateFile.template?, TemplateFile.failure?, h,
        List.length_cons] at hi ⊢ <;> omega

theorem get?_registered :
    (registered templates).get? name = some t ↔ ∃ before p later,
      templates = before ++ (name, p) :: later ∧ t = .compiled p ∧ name ∉ later.map (·.1) := by
  rw [registered, get?_after, live_inserts]
  constructor
  case mp =>
    rintro ⟨before, later, he, hl⟩
    have ⟨before', rest, ht, _, hr⟩ := List.map_eq_append_iff.mp he
    have ⟨entry, later', hc, hp, hl'⟩ := List.map_eq_cons_iff.mp hr
    cases hp
    refine ⟨before', entry.2, later', hc ▸ ht, rfl, ?_⟩
    subst hl'
    simpa using hl
  case mpr =>
    rintro ⟨before, p, later, rfl, rfl, hl⟩
    exact ⟨_, _, List.map_append, by simpa using hl⟩

theorem mem_names_registered :
    name ∈ (registered templates).names ↔ name ∈ templates.map (·.1) := by
  simp [registered, mem_names_after_inserts]

theorem size_registered :
    (registered templates).size = templates.length ↔ (templates.map (·.1)).Nodup := by
  have h := size_after_inserts (templates.map fun (name, p) => (name, Template.compiled p))
  rwa [List.length_map, List.map_map] at h

-- All templates are registered if those of the same name are the same.
theorem forall_registered_iff :
    (∀ entry ∈ templates, (registered templates).get? entry.1 = some (.compiled entry.2)) ↔
      ∀ entry ∈ templates, ∀ entry' ∈ templates, entry.1 = entry'.1 → entry = entry' := by
  constructor
  case mp =>
    intro h entry hm entry' hm' he
    have hg := h entry hm
    rw [he, h entry' hm'] at hg
    have hp : entry'.2 = entry.2 := by simpa using hg
    exact Prod.ext he hp.symm
  case mpr =>
    intro h entry hm
    have ⟨t, ht⟩ := mem_names_iff.mp (mem_names_registered.mpr (List.mem_map_of_mem hm))
    have ⟨before, p, later, he, hp, _⟩ := get?_registered.mp ht
    have hl : (entry.1, p) ∈ templates := he ▸ by simp
    have hp' : entry = (entry.1, p) := h entry hm _ hl rfl
    rw [ht, hp, hp']

-- Every template file is accounted for, by its template or by its failure. Of the templates that
-- have the same name, the registry holds the last one only.
theorem run_registers_last (settings : Settings) (files : Files) :
    let found := TemplateFile.find settings files
    let build := run settings files
    found.Perm ((files.inside settings.root).filterMap (TemplateFile.at? settings)) ∧
    build.templates = found.filterMap (·.template? settings.names) ∧
    build.failures = found.filterMap (·.failure? settings.names) ∧
    build.templates.length + build.failures.length = found.length ∧
    (∀ name t, build.registry.get? name = some t ↔ ∃ before p later,
      build.templates = before ++ (name, p) :: later ∧ t = .compiled p ∧
        name ∉ later.map (·.1)) ∧
    (build.registry.size = build.templates.length ↔ (build.templates.map (·.1)).Nodup) ∧
    ((∀ entry ∈ build.templates, build.registry.get? entry.1 = some (.compiled entry.2)) ↔
      ∀ entry ∈ build.templates, ∀ entry' ∈ build.templates, entry.1 = entry'.1 → entry = entry') ∧
    ∀ file ∈ found, ∃ stem extension, settings.Calls file.path file.name stem extension := by
  intro found build
  have hp := TemplateFile.find_perm settings files
  have hb : build = _ := ofFiles_eq
  rw [hb]
  refine ⟨hp, rfl, rfl, length_template?_add_length_failure?, fun _ _ => get?_registered,
    size_registered, forall_registered_iff, fun file hm => ?_⟩
  have ⟨entry, _, ha⟩ := List.mem_filterMap.mp (hp.mem_iff.mp hm)
  exact TemplateFile.calls_of_at? ha

-- Two files that differ only in their extensions are both built, and one of them is registered.
theorem same_name_is_lost :
    let tree : FileTree := ⟨"", [
      ⟨["views", "tmplc.json"], some "\x7b\"extensions\": [\"a\", \"b\"]\x7d"⟩,
      ⟨["views", "x.a"], some "[\"A\"]"⟩, ⟨["views", "x.b"], some "[\"B\"]"⟩]⟩
    let output (build : Build) (t : Template) :=
      (t.render Store.services build.registry .undefined .undefined .start).1.toOption
    ∃ settings, Settings.load tree.files "views" [] = .ok settings ∧
      let build := run settings tree.files
      (build.templates.map fun (name, p) => (name, output build (.compiled p))) =
        [("x", some "A"), ("x", some "B")] ∧
      build.failures.length = 0 ∧ build.registry.size = 1 ∧
      (build.registry.get? "x").bind (output build) = some "B" := by
  intro tree output
  have h : (Settings.load tree.files "views" []).toOption.any (fun settings =>
      let build := run settings tree.files
      decide ((build.templates.map fun (name, p) => (name, output build (.compiled p))) =
        [("x", some "A"), ("x", some "B")] ∧
      build.failures.length = 0 ∧ build.registry.size = 1 ∧
      (build.registry.get? "x").bind (output build) = some "B")) = true := by decide +kernel
  have ⟨settings, hs, hb⟩ := (Option.any_eq_true _ _).mp h
  refine ⟨settings, ?_, of_decide_eq_true hb⟩
  generalize Settings.load tree.files "views" [] = loaded at hs ⊢
  cases loaded <;> cases hs
  rfl

end Build
end Stencil
