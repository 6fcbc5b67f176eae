import StyleHoist.Conversion.Plan
import StyleHoist.Procedure.World
import StyleHoist.Proofs.Stylesheet.Blocks

/-! A plan as a run over the texts of the documents, from the classes of the
stylesheet that was read. -/
namespace StyleHoist

theorem Source.text_eq_ok {source : Source} {text : Text} : source.text = .ok text ↔ source.content = .ok text := by
  rw [Source.text]
  cases source.content <;> simp

namespace Conversion

variable {project : Project} {sources : Sources} {registry last : Registry} {source : Source}
  {document : DocumentPlan} {documents : List DocumentPlan} {conversion : Conversion}

/-- A document with what became of its text. -/
def planned (source : Source) (outcome : Markup.Outcome) : DocumentPlan := ⟨source.path,source.name,outcome⟩

theorem planDocument_eq_ok : planDocument registry source = .ok (document,last) ↔
    ∃ text outcome, source.content = .ok text ∧ Markup.hoist text registry = (.ok outcome,last) ∧
      document = planned source outcome := by
  simp only [planDocument,bind_eq_ok_iff,Source.text_eq_ok]
  constructor
  · rintro ⟨text,content,done⟩
    rcases hoisted : Markup.hoist text registry with ⟨result,next⟩
    rw [hoisted] at done
    cases result with
    | error obstacle => cases obstacle <;> cases done
    | ok outcome =>
      cases done
      exact ⟨text,outcome,content,hoisted,rfl⟩
  · rintro ⟨text,outcome,content,hoisted,rfl⟩
    refine ⟨text,content,?_⟩
    rw [hoisted]
    rfl

theorem planDocuments_eq_ok {list : List Source} : planDocuments registry list = .ok (documents,last) ↔
    ∃ texts outcomes, list.map (·.content) = texts.map .ok ∧ Markup.hoistAll registry texts = .ok (outcomes,last) ∧
      documents = list.zipWith planned outcomes := by
  induction list generalizing registry documents with
  | nil =>
    constructor
    · intro done
      cases done
      exact ⟨[],[],rfl,rfl,rfl⟩
    · rintro ⟨texts,outcomes,contents,hoisted,rfl⟩
      obtain rfl : texts = [] := by simpa [eq_comm] using contents
      cases hoisted
      rfl
  | cons source rest ih =>
    simp only [planDocuments,bind_eq_ok_iff]
    constructor
    · rintro ⟨⟨head,next⟩,first,⟨tail,final⟩,second,done⟩
      cases done
      obtain ⟨text,outcome,content,hoisted,rfl⟩ := planDocument_eq_ok.mp first
      obtain ⟨texts,outcomes,contents,others,rfl⟩ := ih.mp second
      exact ⟨text :: texts,outcome :: outcomes,by simp [content,contents],
        by simp only [Markup.hoistAll,hoisted,others],rfl⟩
    · rintro ⟨texts,outcomes,contents,hoisted,rfl⟩
      cases texts with
      | nil => cases contents
      | cons text texts =>
        obtain ⟨content,contents⟩ := List.cons.inj contents
        obtain ⟨outcome,next,others,first,second,rfl⟩ := Markup.hoistAll_cons_ok hoisted
        have head := planDocument_eq_ok.mpr ⟨text,outcome,content,first,rfl⟩
        exact ⟨_,head,_,ih.mpr ⟨texts,others,contents,second,rfl⟩,rfl⟩

/-- The plan for sources is the run over their texts, and says where each result is to go. -/
theorem ofSources_eq_ok : ofSources project sources = .ok conversion ↔
    ∃ texts outcomes last, sources.documents.map (·.content) = texts.map .ok ∧
      Markup.hoistAll sources.registry texts = .ok (outcomes,last) ∧
      conversion = ⟨sources.documents.zipWith planned outcomes,project.stylesheetPath,
        Stylesheet.extend sources.stylesheet project.config.blockComment last.pending,last.pending⟩ := by
  simp only [ofSources,bind_eq_ok_iff]
  constructor
  · rintro ⟨⟨documents,last⟩,run,done⟩
    obtain ⟨texts,outcomes,contents,hoisted,rfl⟩ := planDocuments_eq_ok.mp run
    exact ⟨texts,outcomes,last,contents,hoisted,(Except.ok.inj done).symm⟩
  · rintro ⟨texts,outcomes,last,contents,hoisted,rfl⟩
    exact ⟨_,planDocuments_eq_ok.mpr ⟨texts,outcomes,contents,hoisted,rfl⟩,rfl⟩

theorem documents_of_ofSources (made : ofSources project sources = .ok conversion) :
    conversion.documents.map (·.path) = sources.documents.map (·.path) ∧
      ∀ source ∈ sources.documents, ∃ text, source.content = .ok text := by
  obtain ⟨texts,outcomes,last,contents,hoisted,rfl⟩ := ofSources_eq_ok.mp made
  have counted := congrArg List.length contents
  rw [List.length_map,List.length_map] at counted
  refine ⟨?_,fun source member => ?_⟩
  · have even : sources.documents.length ≤ outcomes.length := by
      rw [counted,Markup.length_of_hoistAll hoisted]
    have paired := congrArg (List.map (·.path)) (List.map_fst_zip even)
    rw [← paired,← List.map_uncurry_zip_eq_zipWith,List.map_map,List.map_map]
    rfl
  · obtain ⟨text,-,same⟩ := List.mem_map.mp (contents ▸ List.mem_map_of_mem member)
    exact ⟨text,same.symm⟩

theorem states_of_ofSources (made : ofSources project sources = .ok conversion) {binding : Binding}
    (member : binding ∈ conversion.added) : Stylesheet.States conversion.stylesheet binding := by
  obtain ⟨texts,outcomes,last,-,-,rfl⟩ := ofSources_eq_ok.mp made
  exact Stylesheet.states_extend member

theorem run_plan {paths : List Path} {world later : World} {gathered : Except Failure Sources}
    (read : (Sources.gather project paths).toProcedure.run world = (gathered,later)) :
    (plan project paths).toProcedure.run world = (gathered.bind (ofSources project),later) := by
  have opened := Procedure.run_bind (Sources.gather project paths).run
    (ExceptT.bindCont fun sources => ExceptT.mk (pure (ofSources project sources))) world
  refine opened.trans ?_
  rw [show (Sources.gather project paths).run.run world = _ from read]
  cases gathered <;> rfl

theorem ofSources_of_plan {paths : List Path} {before after : World}
    (done : (plan project paths).toProcedure.run before = (.ok conversion,after)) :
    ∃ sources, ofSources project sources = .ok conversion := by
  rcases read : (Sources.gather project paths).toProcedure.run before with ⟨failure | sources,later⟩
  · rw [run_plan read] at done
    cases done
  · rw [run_plan read] at done
    exact ⟨sources,congrArg Prod.fst done⟩

end Conversion

end StyleHoist
