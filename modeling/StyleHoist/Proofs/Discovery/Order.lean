import Mathlib.Data.List.Sort
import Mathlib.Data.Prod.Lex
import StyleHoist.Discovery
import StyleHoist.Proofs.Text.Order

/-! The order of paths is a total order of their components, in which paths that are written
differently may be equal. Arranged paths are strictly ascending, and up to this equality the
same paths come out that go in, so that only the set of them counts. -/
namespace StyleHoist

namespace Component

/-- The root is the least component, the step upwards comes next, and then the names. -/
def rank : Component → ℕ ×ₗ Text
  | .root => toLex (0,[])
  | .up => toLex (1,[])
  | .name text => toLex (2,text)

theorem rank_injective : Function.Injective rank := by
  intro one other same
  cases one <;> cases other <;> simp_all [rank]

instance : LinearOrder Component := LinearOrder.lift' rank rank_injective

theorem atMost_iff_le (one other : Component) : one.atMost other = true ↔ one ≤ other := by
  rw [show one ≤ other ↔ one.rank ≤ other.rank from Iff.rfl,Prod.Lex.le_iff]
  cases one <;> cases other <;> simp [atMost,rank,Text.atMost_iff_le]

end Component

namespace Path

variable {one other : Path}

theorem componentsAtMost_iff_le (one other : List Component) : componentsAtMost one other = true ↔ one ≤ other := by
  fun_induction componentsAtMost one other with
  | case1 other => exact iff_of_true rfl (Lexical.nil_le other)
  | case2 a left => exact iff_of_false Bool.false_ne_true Lexical.not_cons_le_nil
  | case3 left a right ih => rw [ih,Lexical.cons_le_cons_iff,or_iff_right (lt_irrefl a),and_iff_right rfl]
  | case4 a left b right apart =>
    rw [Component.atMost_iff_le,Lexical.cons_le_cons_iff,or_iff_left fun tie => apart tie.1,le_iff_lt_or_eq,
      or_iff_left apart]

theorem atMost_iff_le : one.atMost other = true ↔ one.components ≤ other.components :=
  componentsAtMost_iff_le _ _

theorem same_iff_eq : one.same other = true ↔ one.components = other.components := decide_eq_true_iff

/-- A path comes before another one that is not the same. -/
def Before (one other : Path) : Prop := one.atMost other = true ∧ one.same other = false

theorem before_iff_lt : one.Before other ↔ one.components < other.components := by
  rw [Before,atMost_iff_le,← Bool.not_eq_true,same_iff_eq,lt_iff_le_and_ne]

end Path

namespace Discovery

variable {path : Path} {paths others : List Path}

/-- The same paths, each as it may be written. -/
def SamePaths (paths others : List Path) : Prop := List.Forall₂ (fun one other => one.same other = true) paths others

theorem samePaths_iff : SamePaths paths others ↔ paths.map Path.components = others.map Path.components := by
  rw [← List.forall₂_eq_eq_eq,List.forall₂_map_left_iff,List.forall₂_map_right_iff,SamePaths]
  simp only [Path.same_iff_eq]

theorem pairwise_mergeSort_atMost (paths : List Path) :
    (paths.mergeSort Path.atMost).Pairwise fun one other => one.components ≤ other.components := by
  simp only [← Path.atMost_iff_le]
  refine List.pairwise_mergeSort (fun a b c front back => ?_) (fun a b => ?_) paths
  · rw [Path.atMost_iff_le] at front back ⊢
    exact front.trans back
  · rw [Bool.or_eq_true,Path.atMost_iff_le,Path.atMost_iff_le]
    exact le_total _ _

theorem components_dropRepeated (paths : List Path) (component : List Component) :
    component ∈ (dropRepeated paths).map Path.components ↔ component ∈ paths.map Path.components := by
  induction paths with
  | nil => rfl
  | cons path rest ih =>
    rw [List.map_cons,List.mem_cons,← ih,dropRepeated]
    split
    next none => simp [none]
    next next' later kept =>
      split
      next same => simp [kept,Path.same_iff_eq.mp same]
      next => simp [kept]

theorem pairwise_dropRepeated (ascending : paths.Pairwise fun one other => one.components ≤ other.components) :
    (dropRepeated paths).Pairwise fun one other => one.components < other.components := by
  induction paths with
  | nil => exact .nil
  | cons path rest ih =>
    obtain ⟨least,ascending⟩ := List.pairwise_cons.mp ascending
    have strict := ih ascending
    have above : ∀ other ∈ dropRepeated rest, path.components ≤ other.components := by
      intro other member
      obtain ⟨kept,among,same⟩ :=
        List.mem_map.mp ((components_dropRepeated rest _).mp (List.mem_map_of_mem member))
      exact same ▸ least kept among
    rw [dropRepeated]
    split
    next => exact List.pairwise_singleton _ _
    next next' later kept =>
      rw [kept] at strict above
      obtain ⟨behind,strict'⟩ := List.pairwise_cons.mp strict
      split
      next same =>
        exact List.pairwise_cons.mpr ⟨fun other member => Path.same_iff_eq.mp same ▸ behind other member,strict'⟩
      next apart =>
        -- neighbours that are not the same path differ in their components
        have less : path.components < next'.components :=
          lt_of_le_of_ne (above next' List.mem_cons_self) (mt Path.same_iff_eq.mpr apart)
        refine List.pairwise_cons.mpr ⟨fun other member => ?_,strict⟩
        rcases List.mem_cons.mp member with rfl | later
        · exact less
        · exact less.trans (behind other later)

theorem pairwise_arrange (paths : List Path) : (arrange paths).Pairwise Path.Before := by
  refine (pairwise_dropRepeated (pairwise_mergeSort_atMost paths)).imp fun less => ?_
  exact Path.before_iff_lt.mpr less

theorem components_arrange (paths : List Path) (component : List Component) :
    component ∈ (arrange paths).map Path.components ↔ component ∈ paths.map Path.components := by
  rw [arrange,components_dropRepeated]
  exact ((List.mergeSort_perm paths Path.atMost).map _).mem_iff

theorem exists_mem_arrange (paths : List Path) (path : Path) :
    (∃ found ∈ arrange paths, found.same path = true) ↔ ∃ found ∈ paths, found.same path = true := by
  simpa only [List.mem_map,← Path.same_iff_eq] using components_arrange paths path.components

/-- What is arranged depends on nothing but which paths there are. -/
theorem samePaths_arrange
    (same : ∀ component, component ∈ paths.map Path.components ↔ component ∈ others.map Path.components) :
    SamePaths (arrange paths) (arrange others) := by
  have strict : ∀ paths, ((arrange paths).map Path.components).Pairwise (· < ·) := fun paths =>
    List.pairwise_map.mpr ((pairwise_arrange paths).imp Path.before_iff_lt.mp)
  refine samePaths_iff.mpr ((strict paths).eq_of_mem_iff (strict others) fun component => ?_)
  rw [components_arrange,components_arrange,same]

end Discovery

end StyleHoist
