import MarkupSyntax.Proofs.Document.Precedence
import MarkupSyntax.Proofs.Grammar.AdmitsContent

/-!
# `MarkupSyntax.Proofs.Document.Domains`: control constructs stay in their domains

Control constructs over values, over elements and over properties are
parsed by the same rules, and the body of an element may hold some of
them before it turns out to be mixed with text. In the tree they are kept
apart all the same, whatever the errors (`parse_keeps_domains`): lists
have only the control constructs of their own domain, mixed content has
none, arms stand in the construct that they are arms of, and bodies are
of the domain of their construct.
-/

set_option autoImplicit false

namespace MarkupSyntax

namespace SyntaxKind

variable {field : Option String} {kind : SyntaxKind} {domain : Domain} {form : ControlForm}

/-- A control construct of a domain is of any form but that of an arm. -/
theorem isControlOf_iff :
    kind.isControlOf domain = true ↔ ∃ form, form.isArm = false ∧ kind = control domain form := by
  cases kind <;> simp [isControlOf, and_comm]

/-- The arm of a match has no field, and stands in a match of its domain. -/
theorem parent_of_admits_matchArm {parent : SyntaxKind}
    (h : parent.admits (field, control domain .matchArm) = true) :
    field = none ∧ parent = control domain .ifMatch := by
  simpa using (Bool.and_eq_true_iff.mp h)

/-- The arm of a list of conditions has no field, and stands in such a list of
its domain. -/
theorem parent_of_admits_conditionArm {parent : SyntaxKind}
    (h : parent.admits (field, control domain .conditionArm) = true) :
    field = none ∧ parent = control domain .ifConditionList := by
  simpa using (Bool.and_eq_true_iff.mp h)

/-- Arms have no field, and stand in control constructs only. -/
theorem isArm_of_admits {parent : SyntaxKind} (h : parent.admits (field, kind) = true)
    (hplace : parent.isControl = false ∨ field ≠ none) : kind.isArm = false := by
  have hnot : ∀ {domain form}, ¬ (field = none ∧ parent = control domain form) := by
    rintro domain form ⟨rfl, rfl⟩
    rcases hplace with hplace | hplace
    · cases hplace
    · exact hplace rfl
  cases kind with
  | control domain form =>
    cases form with
    | matchArm => exact absurd (parent_of_admits_matchArm h) hnot
    | conditionArm => exact absurd (parent_of_admits_conditionArm h) hnot
    | _ => rfl
  | _ => rfl

/-- What a list of properties may hold. -/
theorem kind_of_admits_propertyList (h : propertyList.admits (field, kind) = true) :
    kind = propertyValue ∨ kind = error ∨
      ∃ form, form.isArm = false ∧ kind = control .properties form := by
  rw [Grammar.admits_eq (isArm_of_admits h (.inl rfl))] at h
  simpa [isProperty, isControlOf_iff, or_assoc] using h

/-- What a sequence of elements may hold. -/
theorem kind_of_admits_elementsExpression (h : elementsExpression.admits (field, kind) = true) :
    kind = element ∨ kind = interpolationExpression ∨ kind = error ∨
      ∃ form, form.isArm = false ∧ kind = control .elements form := by
  rw [Grammar.admits_eq (isArm_of_admits h (.inl rfl))] at h
  simpa [isMarkup, isControlOf_iff, or_assoc] using h

/-- What mixed content may hold: no control construct at all. -/
theorem kind_of_admits_mixedContent (h : mixedContent.admits (field, kind) = true) :
    kind = element ∨ kind = interpolationExpression ∨ kind = error ∨ kind = textRun := by
  rw [Grammar.admits_eq (isArm_of_admits h (.inl rfl))] at h
  simpa [isMarkup, or_assoc] using h

/-- The bodies of a control construct are of its domain. -/
theorem kind_of_admits_body (hbody : isBodyField field = true)
    (h : (control domain form).admits (field, kind) = true) :
    kind ∈ Grammar.bodyKinds domain := by
  have hfield : field ≠ none := by
    rintro rfl
    cases hbody
  have hfree := isArm_of_admits h (.inr hfield)
  rw [Grammar.admits_eq hfree] at h
  cases domain with
  | value => exact hfree
  | elements => simpa [hbody, Grammar.bodyKinds] using h
  | properties => simpa [hbody, Grammar.bodyKinds] using h

end SyntaxKind

/-- With the end of the source as a last part, and a root around it, a
node of a module stays in order. -/
theorem Tree.housed_rooted_outermost {text : Text} {sprout : Sprout} {supply : Supply} {limit : Nat}
    (hnode : sprout.isNode = true) (hkind : sprout.kind = .moduleDefinition)
    (h : sprout.outline.Housed limit) : (outermost text sprout supply).rooted.outline.Housed limit := by
  have hadmits : ∀ part ∈ sprout.outline.parts ++ [.leaf none (.token .eof)],
      SyntaxKind.moduleDefinition.admits (part.field, part.kind) = true := by
    intro part hmem
    rcases List.mem_append.mp hmem with hmem | hmem
    · have hself := h.admits _ (Outline.mem_all.mpr (.inl rfl)) part hmem
      rwa [Sprout.kind_outline, hkind] at hself
    · rw [List.mem_singleton.mp hmem]
      rfl
  have hparts : ∀ part ∈ sprout.outline.parts ++ [.leaf none (.token .eof)],
      part.Housed limit := by
    intro part hmem
    rcases List.mem_append.mp hmem with hmem | hmem
    · exact h.parts part hmem
    · rw [List.mem_singleton.mp hmem]
      exact .leaf ..
  have hmodule := Outline.Housed.node none hparts hadmits
  rw [outline_rooted_outermost hnode (by rw [hkind]; decide), hkind]
  refine (@Outline.Housed.node limit .root _ none ?_ ?_).mono (by simp [SyntaxKind.level])
  · intro part hmem
    rw [List.mem_singleton.mp hmem]
    exact hmodule.mono (by simp [SyntaxKind.level])
  · intro part hmem
    rw [List.mem_singleton.mp hmem]
    rfl

namespace Document

open Grammar Parse SyntaxKind

/-- The tree of a parse is a root around a module, errors or not. It is in
order, which is to say that every part is admitted where it stands, and it has
no more levels than the options allow. Each rule of the grammar keeps this of
the record (`Grammar.Bears`), and the tree is read off the record. -/
theorem Finished.housed_treeOf {source file : Text} {options : Options} {final : Parser}
    {sprout : Sprout} (h : Finished source options file final sprout) :
    (treeOf final sprout).outline.Housed options.maxNestingDepth.toNat ∧
      ∃ parts, (treeOf final sprout).outline = .node none .root [.node none .moduleDefinition parts] := by
  obtain ⟨node, hrun⟩ := h.exists_module_eq_ok
  obtain ⟨sprout', hevents, hsound, hpoints, hfosters⟩ :=
    ((produces_module bearing_descent (parser source options file)).ok hrun).grown
  have hevents' : final.events.toList = Sprout.eventsList [sprout'] := by
    rw [hevents]
    exact (List.append_nil _).symm
  have htree : treeOf final sprout = treeOf final sprout' :=
    h.treeOf_eq hevents' hsound hpoints.isNode
  have hhoused : sprout'.outline.Housed options.maxNestingDepth.toNat := by
    have hlimit : (parser source options file).allowance + 0
        = options.maxNestingDepth.toNat := congrArg Int.toNat (Int.sub_zero _)
    rw [← hlimit]
    exact hfosters.housed
  have hkind : sprout'.kind = .moduleDefinition := hfosters.role.2
  rw [htree, treeOf]
  refine ⟨Tree.housed_rooted_outermost hpoints.isNode hkind hhoused, ?_⟩
  rw [Tree.outline_rooted_outermost hpoints.isNode (by rw [hkind]; decide), hkind]
  exact ⟨_, rfl⟩

/-- Every document is in order, and has no more levels than its options
allow. -/
theorem exists_parse_housed (decoded : Decoded) (options : Options) (file : Text) :
    ∃ document, parse decoded options file = .ok document ∧
      document.tree.outline.Housed options.maxNestingDepth.toNat ∧ document.tree.kind = .root := by
  obtain ⟨final, sprout, h⟩ := exists_finished decoded.text options file
  obtain ⟨hhoused, parts, houtline⟩ := h.housed_treeOf
  refine ⟨_, h.parse_eq, hhoused, ?_⟩
  show (treeOf final sprout).kind = _
  rw [← Tree.kind_outline, houtline]
  rfl

/-- In the tree of every source, with any options and errors or not, the clauses
are about a node and a child of it, in this order:

- lists of properties hold properties, error nodes, and control constructs of
  properties;
- sequences of elements hold elements, interpolations, error nodes, and control
  constructs of elements;
- mixed content holds elements, interpolations, error nodes and runs of text;
- none of the three holds a control construct of values;
- an arm stands in the construct that it is an arm of, of its own domain;
- the bodies of a construct of elements are sequences of elements or error
  nodes, and those of a construct of properties are lists of properties. -/
theorem parse_keeps_domains (decoded : Decoded) (options : Options) (file : Text) :
    ∃ document, parse decoded options file = .ok document ∧ document.root.kind = .root ∧
      ∀ node ∈ document.root.nodes, ∀ child ∈ node.children,
        (node.kind = .propertyList → child.kind = .propertyValue ∨ child.kind = .error ∨
          ∃ form, form.isArm = false ∧ child.kind = .control .properties form) ∧
        (node.kind = .elementsExpression → child.kind = .element ∨
          child.kind = .interpolationExpression ∨ child.kind = .error ∨
          ∃ form, form.isArm = false ∧ child.kind = .control .elements form) ∧
        (node.kind = .mixedContent → child.kind = .element ∨
          child.kind = .interpolationExpression ∨ child.kind = .error ∨ child.kind = .textRun) ∧
        (node.kind ∈ [.propertyList, .elementsExpression, .mixedContent] →
          ∀ form, child.kind ≠ .control .value form) ∧
        (∀ domain, child.kind = .control domain .matchArm →
          node.kind = .control domain .ifMatch) ∧
        (∀ domain, child.kind = .control domain .conditionArm →
          node.kind = .control domain .ifConditionList) ∧
        (child.field? ∈ [some "then", some "else", some "body"] → ∀ form,
          (node.kind = .control .elements form →
            child.kind = .elementsExpression ∨ child.kind = .error) ∧
          (node.kind = .control .properties form → child.kind = .propertyList)) := by
  obtain ⟨document, hparse, hhoused, hroot⟩ := exists_parse_housed decoded options file
  have hwhole : document.root.outline.Housed options.maxNestingDepth.toNat := by
    show (document.tree.withField none).outline.Housed _
    rw [Tree.outline_withField]
    exact hhoused.withField none
  -- Each clause is read off the one fact that the child is admitted in the node.
  refine ⟨document, hparse, ?_, fun node hnode child hchild => ?_⟩
  · rw [← Located.kind_outline]
    show (document.tree.withField none).outline.kind = _
    rw [Tree.outline_withField, Outline.kind_withField, Tree.kind_outline, hroot]
  have hadmits : node.kind.admits (child.field?, child.kind) = true := by
    have hpart : child.outline ∈ node.outline.parts := by
      rw [← Located.map_outline_children]
      exact List.mem_map_of_mem hchild
    have h := hwhole.admits _ (Located.outline_mem_all hnode) _ hpart
    rwa [Located.kind_outline, Located.field_outline, Located.kind_outline] at h
  generalize child.kind = kind at hadmits ⊢
  generalize child.field? = field at hadmits ⊢
  generalize node.kind = parent at hadmits ⊢
  refine ⟨?_, ?_, ?_, fun hlist form hkind => ?_, ?_, ?_, fun hfield form => ⟨?_, ?_⟩⟩
  · rintro rfl
    exact kind_of_admits_propertyList hadmits
  · rintro rfl
    exact kind_of_admits_elementsExpression hadmits
  · rintro rfl
    exact kind_of_admits_mixedContent hadmits
  · subst hkind
    simp only [List.mem_cons, List.not_mem_nil, or_false] at hlist
    rcases hlist with rfl | rfl | rfl
    · simpa using kind_of_admits_propertyList hadmits
    · simpa using kind_of_admits_elementsExpression hadmits
    · simpa using kind_of_admits_mixedContent hadmits
  · rintro domain rfl
    exact (parent_of_admits_matchArm hadmits).2
  · rintro domain rfl
    exact (parent_of_admits_conditionArm hadmits).2
  all_goals
    rintro rfl
    have hbody : isBodyField field = true := by simpa [isBodyField, or_assoc] using hfield
    exact kind_of_admits_body hbody hadmits

end Document

end MarkupSyntax
