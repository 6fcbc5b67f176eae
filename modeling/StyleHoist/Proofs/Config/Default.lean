import Mathlib.Data.List.Basic
import StyleHoist.Sources

/-! The settings that hold where none are given. They pass their own check, and what
their globs select does not depend on the other settings. -/
namespace StyleHoist

open Procedure

namespace Config

variable {config : Config}

theorem globFlaw?_default :
    (globFlaw? "include" default.includes).or (globFlaw? "exclude" default.excludes) = none := by cbv

/-- Settings that differ from these in what no check looks at, or in the suffix, pass it too. -/
theorem validate_of_suffix (named : config.classPrefix = default.classPrefix)
    (included : config.includes = default.includes) (excluded : config.excludes = default.excludes)
    (comment : config.blockComment = default.blockComment) (filled : config.backupSuffix ≠ [])
    (plain : config.backupSuffix.head? ≠ some '.') : config.validate = .ok () := by
  have letters : isValidPrefix default.classPrefix = true := by decide
  have pages : default.includes ≠ [] := List.cons_ne_nil _ _
  have inside : closesComment default.blockComment = false := by decide
  rw [validate,flaw?,named,letters,included,excluded,globFlaw?_default,comment,inside]
  simp [pages,filled,plain]

theorem validate_default : default.validate = .ok () :=
  validate_of_suffix rfl rfl rfl rfl (List.cons_ne_nil _ _) (by decide)

/-- Pages, but no backups and nothing in the folders of tools. -/
def defaultSelector : Glob.Selector where
  included := [.leading :: .star :: ".html".toList.map .literal]
  excluded :=
    [.leading :: .star :: ".bak".toList.map .literal,
      .leading :: "node_modules".toList.map .literal ++ [.trailing],
      .leading :: ".git".toList.map .literal ++ [.trailing]]

theorem selector_default : default.selector = .ok defaultSelector := by cbv

theorem selector_of_globs (included : config.includes = default.includes)
    (excluded : config.excludes = default.excludes) : config.selector = .ok defaultSelector := by
  rw [← selector_default,selector,selector,included,excluded]

end Config

variable {project : Project} {selector : Glob.Selector}

theorem Discovery.documents_eq (selected : project.config.selector = .ok selector) (paths : List Path) :
    documents project paths =
      ((if paths = [] then [project.root] else paths.map project.resolve).mapM target >>= fun targets =>
        pure (arrange (targets.flatMap (chosen project selector)))) := by
  rw [documents,selected]
  rfl

theorem Sources.gather_eq (selected : project.config.selector = .ok selector) (paths : List Path) :
    gather project paths = (readStylesheet project.stylesheetPath >>= fun stylesheet =>
      ExceptT.mk (pure (seed project stylesheet)) >>= fun registry =>
      ((if paths = [] then [project.root] else paths.map project.resolve).mapM Discovery.target >>= fun targets =>
        pure (Discovery.arrange (targets.flatMap (Discovery.chosen project selector)))) >>= fun selected =>
      (selected.filter fun path => !path.same project.stylesheetPath).mapM
        (fun path => ExceptT.lift (readDocument project path)) >>= fun documents =>
      pure ⟨stylesheet,registry,documents⟩) := by
  rw [gather,Discovery.documents_eq selected]

end StyleHoist
