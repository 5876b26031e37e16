import MarkupSyntax.Grammar.Definitions
import MarkupSyntax.Grammar.Descent

/-!
# `MarkupSyntax.Grammar.Rules`: the rules of the grammar by name

Tools that work on a part of a source start at a rule other than the
one for modules. `rule?` finds it by its published name.
-/

set_option autoImplicit false

namespace MarkupSyntax.Grammar

/-- A rule that always answers with a node. -/
def certain (rule : Parse Completed) : Parse (Option Completed) := some <$> rule

/-- The domain of the name that rules use. -/
def domain? : String → Option Domain
  | "value" => some .value
  | "elements" => some .elements
  | "property_list" => some .properties
  | _ => none

/-- The rules whose nodes fill a field that the caller names. -/
def fieldRule? (field : Option String) : String → Option (Parse (Option Completed))
  | "type" => type field
  | "expect_type" => certain (expectType field)
  | "value_expression" => descent (.value field)
  | "expect_value_expression" => certain (expectValue descent field)
  | "element" => descent (.element field)
  | "property_list" => propertyList descent field false
  | "property_list_in_arm" => propertyList descent field true
  | "elements_expression" => elementsExpression descent field false
  | "elements_expression_in_arm" => elementsExpression descent field true
  | "rhs" => rightSide descent field
  | "mixed_content" => certain (mixedContent descent field)
  | "interpolation" => certain (interpolation descent field)
  | "literal" => literal field
  | "qualified_name" => qualifiedName field
  | "qualified_markup_name" => qualifiedMarkupName field
  | "nesting_too_deep" => certain (nestingTooDeep field)
  | _ => none

/-- The rules whose nodes fill a field of their own or none. -/
def plainRule? : String → Option (Parse (Option Completed))
  | "module" => certain (module descent)
  | "module_item" => moduleItem descent
  | "property_definition" => certain (propertyDefinition descent)
  | "elements_item" => elementsItem descent
  | "close_tag" => some do
    closeTag
    return none
  | "element_content" => certain (elementContent descent)
  | "text_content" => certain (textContent descent)
  | "embed_content" => certain (embedContent descent)
  | "raw_text_run" => certain rawTextRun
  | "pattern" => pattern
  | name =>
    match name.splitOn "_" with
    | "if" :: rest => do certain (ifExpression descent (← domain? ("_".intercalate rest)))
    | "for" :: rest => do certain (forExpression descent (← domain? ("_".intercalate rest)))
    | _ => none

/-- The rule of a name; its node fills `field` where the rule leaves
that to its caller. -/
def rule? (name : String) (field : Option String) : Option (Parse (Option Completed)) :=
  (fieldRule? field name).or (plainRule? name)

end MarkupSyntax.Grammar
