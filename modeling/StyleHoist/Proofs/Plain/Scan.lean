import StyleHoist.Proofs.Markup.Scanning
import StyleHoist.Proofs.Plain.Surroundings

/-! The scan of a printed tag. Between style attributes it passes everything over,
whatever names and values remind of one, and at a style attribute it finds the
tag and the class attribute that were printed. -/
namespace StyleHoist.Markup

open Text

private theorem styleOpen_eq : styleOpen = "style".toList ++ ['=','"'] := rfl

theorem scanFrom_ends {text rest : Text} (unquoted : '"' ∉ text) (ends : Ends rest) (behind : Text) :
    scanFrom behind (text ++ rest) = scanFrom (text.reverse ++ behind) rest := by
  obtain ⟨c,tail,rfl,stop⟩ := ends
  apply scanFrom_append
  intro tail some suffix
  rw [after?_append_cons (not_mem_open_of_endsName stop).1,Option.map_eq_none_iff]
  cases found : after? styleOpen tail with
  | none => rfl
  | some rest =>
    have whole := after?_eq_some.mp found
    exact absurd (suffix.mem (whole ▸ List.mem_append_left rest (by decide))) unquoted

theorem scanFrom_space {space : Text} (spaces : ∀ c ∈ space, isSpace c = true) (behind rest : Text) :
    scanFrom behind (space ++ rest) = scanFrom (space.reverse ++ behind) rest := by
  apply scanFrom_ne
  rintro c member rfl
  exact absurd (spaces _ member) (by decide)

section Attributes

variable {attr : Attribute}

theorem isStyle_eq_false {name : Text} (other : attr.isStyle = false) (named : attr.name = name) :
    name ≠ "style".toList := by
  rw [Attribute.isStyle,named,decide_eq_false_iff_not] at other
  exact other

/-- The name of another attribute is passed over up to its value, also one that ends in the
name of a style attribute. -/
theorem scanFrom_name (formed : attr.Formed) (other : attr.isStyle = false) (behind rest : Text) :
    scanFrom behind (attr.name ++ '=' :: '"' :: rest) =
      scanFrom ('"' :: '=' :: attr.name.reverse ++ behind) rest := by
  have unquoted : '"' ∉ attr.name ++ ['='] := by
    intro member
    rcases List.mem_append.mp member with inside | sign
    · exact Attribute.quote_not_mem formed.name inside
    · exact absurd sign (by decide)
  have escaped : Escaped (attr.name ++ ['=']) := escaped_of_not_mem unquoted
  by_cases suffix : "style=".toList <:+ attr.name ++ ['=']
  · obtain ⟨front,whole⟩ := suffix
    have split : "style=".toList = "style".toList ++ ['='] := rfl
    rw [split,← List.append_assoc] at whole
    have named := List.append_cancel_right whole
    have some : front ≠ [] := by
      rintro rfl
      exact isStyle_eq_false other rfl named.symm
    obtain ⟨first,last,rfl⟩ := (List.eq_nil_or_concat' front).resolve_left some
    -- a name that ends in `style` but is another: a letter stands before the opening
    have letter := Attribute.isNameChar_eq_true (formed.name last (by simp [← named]))
    have again : attr.name ++ '=' :: '"' :: rest = first ++ [last] ++ (styleOpen ++ rest) := by
      rw [← named,styleOpen_eq,List.append_assoc,List.append_assoc _ ['=','"']]
      rfl
    rw [again,scanFrom_append,scanFrom_within]
    · rw [← named,styleOpen_eq]
      generalize "style".toList = word
      simp
    · simp [letter]
    · simp [letter]
    · intro tail some suffix
      have longer : tail ++ (styleOpen ++ rest) = (tail ++ "style=".toList) ++ '"' :: rest := by
        rw [List.append_assoc]
        rfl
      rw [longer]
      obtain ⟨lead,same⟩ := suffix
      refine after?_of_escaped_quote escaped ⟨lead,?_⟩ (fun same => some (List.append_left_eq_self.mp same)) rest
      rw [← whole,← same,split]
      simp only [List.append_assoc]
  · have again : attr.name ++ '=' :: '"' :: rest = attr.name ++ ['='] ++ '"' :: rest := by simp
    rw [again,scanFrom_past escaped suffix]
    simp

theorem scanFrom_other (legible : attr.Legible) (other : attr.isStyle = false) {rest : Text}
    (ends : Ends rest) (behind : Text) :
    scanFrom behind (attr.print ++ rest) = scanFrom (attr.print.reverse ++ behind) rest := by
  cases valued : attr.value with
  | none =>
    rw [Attribute.print_of_none valued,List.append_assoc,scanFrom_space legible.space,
      scanFrom_ends (Attribute.quote_not_mem legible.name) ends]
    simp
  | some value =>
    obtain ⟨unquoted,unopened⟩ := legible.passed other value valued
    rw [Attribute.print_append_of_some valued,scanFrom_space legible.space,scanFrom_name legible.toFormed other,
      scanFrom_past (escaped_of_not_mem unquoted) unopened]
    simp [Attribute.print_of_some valued]

end Attributes

/-- The places of the style attributes among some that are printed at an offset. -/
def locateStyles (tag : Span) (classAttr : Option ClassAttr) (offset : Nat) :
    List Attribute → List StyleAttr
  | [] => []
  | attr :: rest =>
    let later := locateStyles tag classAttr (offset + byteSize attr.print) rest
    if attr.isStyle then ⟨attr.span offset,attr.valueSpan offset,tag,classAttr⟩ :: later else later

/-- The style attributes of a tag that is printed at a place. -/
def Tag.located (tag : Tag) (start : Nat) : List StyleAttr :=
  locateStyles (tag.spanAt start) (locateClass (tag.inner start) tag.attributes) (tag.inner start)
    tag.attributes

section Tags

variable {tag : Tag}

theorem scanFrom_style (legible : tag.Legible) {done rest : List Attribute} {attr : Attribute}
    (split : tag.attributes = done ++ attr :: rest) (named : attr.isStyle = true) (before after : Text)
    {offset : Nat} (place : offset = tag.inner (byteSize before) + byteSize (done.flatMap Attribute.print)) :
    scanFrom ((tag.name ++ done.flatMap Attribute.print).reverse ++ '<' :: before)
        (attr.print ++ (rest.flatMap Attribute.print ++ tag.finish ++ after)) =
      .style ⟨attr.span offset,attr.valueSpan offset,tag.spanAt (byteSize before),
        locateClass (tag.inner (byteSize before)) tag.attributes⟩ ::
      scanFrom ((tag.name ++ (done ++ [attr]).flatMap Attribute.print).reverse ++ '<' :: before)
        (rest.flatMap Attribute.print ++ tag.finish ++ after) := by
  have here : attr.Legible := legible.each attr (split ▸ List.mem_append_right _ List.mem_cons_self)
  obtain ⟨value,valued⟩ := here.exists_value (.inl named)
  have located := Tag.styleAttr?_print legible split named valued before after place
  have opening : attr.name ++ ['=','"'] = styleOpen := by
    rw [Attribute.isStyle,decide_eq_true_eq] at named
    rw [named]
    rfl
  have again (rest : Text) : attr.print ++ rest =
      attr.space ++ (styleOpen ++ (value ++ '"' :: rest)) := by
    rw [Attribute.print_append_of_some valued,← opening]
    simp
  obtain ⟨first,last,space⟩ := (List.eq_nil_or_concat' attr.space).resolve_left here.spaced
  have spaced (behind : Text) : (attr.space.reverse ++ behind).head?.any isSpace = true := by
    rw [space]
    simp [here.space last (by rw [space]; simp)]
  obtain ⟨escaped,solid⟩ := here.taken named value valued
  have closed (rest : Text) := closeValue?_escaped escaped solid rest
  rw [again,scanFrom_space here.space,scanFrom_value (spaced _) (closed _)]
  rw [← List.append_assoc attr.space.reverse,← List.reverse_append,itemAt,located]
  simp [← opening,Attribute.print_of_some valued]

theorem scanFrom_attributes (legible : tag.Legible) (done : List Attribute) {attributes : List Attribute}
    (split : tag.attributes = done ++ attributes) (before after : Text) {offset : Nat}
    (place : offset = tag.inner (byteSize before) + byteSize (done.flatMap Attribute.print)) :
    scanFrom ((tag.name ++ done.flatMap Attribute.print).reverse ++ '<' :: before)
        (attributes.flatMap Attribute.print ++ tag.finish ++ after) =
      (locateStyles (tag.spanAt (byteSize before))
        (locateClass (tag.inner (byteSize before)) tag.attributes) offset attributes).map .style ++
      scanFrom (tag.print.reverse ++ before) after := by
  induction attributes generalizing done offset with
  | nil =>
    have solid : ∀ c ∈ tag.finish, c ≠ 's' := by
      intro c member same
      rw [same] at member
      rcases List.mem_append.mp member with space | tail
      · exact absurd (legible.space _ space) (by decide)
      · revert tail
        cases tag.slash <;> decide
    rw [List.append_nil] at split
    rw [List.flatMap_nil,List.nil_append,scanFrom_ne solid,Tag.print_eq,split]
    simp [locateStyles]
  | cons attr rest ih =>
    have here : attr.Legible := legible.each attr (split ▸ List.mem_append_right _ List.mem_cons_self)
    have next : tag.attributes = (done ++ [attr]) ++ rest := by simp [split]
    have moved : offset + byteSize attr.print =
        tag.inner (byteSize before) + byteSize ((done ++ [attr]).flatMap Attribute.print) := by
      rw [place,List.flatMap_append,byteSize_append,List.flatMap_singleton,Nat.add_assoc]
    have later := ih (done ++ [attr]) next moved
    rw [List.flatMap_cons,List.append_assoc,List.append_assoc,← List.append_assoc (rest.flatMap _)]
    cases named : attr.isStyle with
    | true =>
      rw [scanFrom_style legible split named before after place,later,locateStyles,named,if_pos rfl]
      rfl
    | false =>
      have ends : Ends (rest.flatMap Attribute.print ++ tag.finish ++ after) := by
        refine (Tag.ends_attributes legible.toFormed fun other member => ?_).append after
        exact legible.attributes other (split ▸ List.mem_append_right _ (List.mem_cons_of_mem _ member))
      rw [scanFrom_other here named ends,locateStyles,named,if_neg Bool.false_ne_true,← later]
      simp

theorem scanFrom_tag (legible : tag.Legible) (before after : Text) :
    scanFrom before (tag.print ++ after) =
      (tag.located (byteSize before)).map .style ++ scanFrom (tag.print.reverse ++ before) after := by
  have unquoted := Attribute.quote_not_mem legible.name
  have ends : Ends (tag.attributes.flatMap Attribute.print ++ tag.finish ++ after) :=
    (Tag.ends_attributes legible.toFormed legible.attributes).append after
  have inside := scanFrom_attributes legible [] (List.nil_append _).symm before after rfl
  rw [List.flatMap_nil,List.append_nil,byteSize_nil,Nat.add_zero] at inside
  have whole : tag.print ++ after =
      '<' :: (tag.name ++ (tag.attributes.flatMap Attribute.print ++ tag.finish ++ after)) := by
    rw [Tag.print_eq]
    simp
  rw [whole,scanFrom_cons rfl,scanFrom_ends unquoted ends,inside,Tag.located]

end Tags

end StyleHoist.Markup
