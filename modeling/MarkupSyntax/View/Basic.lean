import MarkupSyntax.Fault
import MarkupSyntax.View.Literal

/-!
# `MarkupSyntax.View.Basic`: typed views of a tree

A view wraps a node and gives its parts by what they mean. It holds
nothing but the node, so the tree stays the only source of truth, and a
part that a faulty source left out is none here.
-/

set_option autoImplicit false

namespace MarkupSyntax

/-! ### The views -/

/-- A module. -/
structure Module where
  node : Located

/-- `import name` -/
structure ImportStatement where
  node : Located

/-- The name of a type, with what follows it. -/
structure TypeReference where
  node : Located

/-- `type name = type` -/
structure TypeDefinition where
  node : Located

/-- `enum name = member | member` -/
structure EnumDefinition where
  node : Located

/-- `let name = value` -/
structure ValueDefinition where
  node : Located

/-- A parameter of a function or component. -/
structure PropertyDefinition where
  node : Located

/-- `let name(parameters) = value`, or the same for a component. -/
structure FunctionDefinition where
  node : Located

/-- An element. -/
structure Element where
  node : Located

/-- The properties of a tag. -/
structure PropertyList where
  node : Located

/-- `name=value` -/
structure PropertyValue where
  node : Located

/-- The body of an element. -/
structure Content where
  node : Located

/-- A run of text. -/
structure TextRun where
  node : Located

/-- A value in braces. -/
structure Interpolation where
  node : Located

/-- A literal. -/
structure Literal where
  node : Located

/-- A name used as a value. -/
structure Identifier where
  node : Located

/-- A value expression of any other form. -/
structure Expression where
  node : Located

/-- An `if` or a `for`. -/
structure ControlExpression where
  node : Located

/-- An arm of a match or of a list of conditions. -/
structure ControlArm where
  node : Located

/-- What did not fit the grammar. -/
structure ErrorNode where
  node : Located

/-- A node by what it means. -/
inductive View where
  | module (view : Module)
  | importStatement (view : ImportStatement)
  | type (view : TypeReference)
  | typeDefinition (view : TypeDefinition)
  | enumDefinition (view : EnumDefinition)
  | valueDefinition (view : ValueDefinition)
  | propertyDefinition (view : PropertyDefinition)
  | functionDefinition (view : FunctionDefinition)
  | element (view : Element)
  | propertyList (view : PropertyList)
  | propertyValue (view : PropertyValue)
  | content (view : Content)
  | textRun (view : TextRun)
  | interpolation (view : Interpolation)
  | literal (view : Literal)
  | identifier (view : Identifier)
  | expression (view : Expression)
  | controlExpression (view : ControlExpression)
  | controlArm (view : ControlArm)
  | errorNode (view : ErrorNode)

namespace View

/-- The node of a view. -/
def node : View → Located
  | module view => view.node
  | importStatement view => view.node
  | type view => view.node
  | typeDefinition view => view.node
  | enumDefinition view => view.node
  | valueDefinition view => view.node
  | propertyDefinition view => view.node
  | functionDefinition view => view.node
  | element view => view.node
  | propertyList view => view.node
  | propertyValue view => view.node
  | content view => view.node
  | textRun view => view.node
  | interpolation view => view.node
  | literal view => view.node
  | identifier view => view.node
  | expression view => view.node
  | controlExpression view => view.node
  | controlArm view => view.node
  | errorNode view => view.node

/-- The published name of the kind of view. -/
def className : View → String
  | module _ => "Module"
  | importStatement _ => "ImportStatement"
  | type _ => "Type"
  | typeDefinition _ => "TypeDefinition"
  | enumDefinition _ => "EnumDefinition"
  | valueDefinition _ => "ValueDefinition"
  | propertyDefinition _ => "PropertyDefinition"
  | functionDefinition _ => "FunctionDefinition"
  | element _ => "Element"
  | propertyList _ => "PropertyList"
  | propertyValue _ => "PropertyValue"
  | content _ => "Content"
  | textRun _ => "TextRun"
  | interpolation _ => "Interpolation"
  | literal _ => "Literal"
  | identifier _ => "Identifier"
  | expression _ => "Expression"
  | controlExpression _ => "ControlExpression"
  | controlArm _ => "ControlArm"
  | errorNode _ => "ErrorNode"

end View

namespace Located

/-! ### From nodes to views -/

/-- The view of a node; names, patterns and the like have none. -/
def view? (node : Located) : Option View :=
  match node.kind with
  | .moduleDefinition => some (.module ⟨node⟩)
  | .importStatement => some (.importStatement ⟨node⟩)
  | .typeDefinition => some (.typeDefinition ⟨node⟩)
  | .enumDefinition => some (.enumDefinition ⟨node⟩)
  | .valueDefinition => some (.valueDefinition ⟨node⟩)
  | .functionDefinition => some (.functionDefinition ⟨node⟩)
  | .propertyDefinition => some (.propertyDefinition ⟨node⟩)
  | .typeReference => some (.type ⟨node⟩)
  | .element => some (.element ⟨node⟩)
  | .propertyList => some (.propertyList ⟨node⟩)
  | .propertyValue => some (.propertyValue ⟨node⟩)
  | .elementsExpression | .mixedContent | .textContent | .embedContent =>
    some (.content ⟨node⟩)
  | .textRun | .embedTextRun | .rawTextRun => some (.textRun ⟨node⟩)
  | .interpolationExpression | .embedInterpolationExpression => some (.interpolation ⟨node⟩)
  | .identifierExpression => some (.identifier ⟨node⟩)
  | .error => some (.errorNode ⟨node⟩)
  | .control _ form =>
    if form.isArm then some (.controlArm ⟨node⟩) else some (.controlExpression ⟨node⟩)
  | .binaryExpression | .prefixUnaryExpression | .callExpression | .memberAccessExpression
  | .conditionalExpression | .unitLiteral | .parenthesizedExpression =>
    some (.expression ⟨node⟩)
  | kind => if kind.isLiteral then some (.literal ⟨node⟩) else none

/-- The view of a part, if it is a node with one. -/
def nodeView? (part : Located) : Option View := if part.isNode then part.view? else none

/-- The view of the first child in a field. -/
def fieldView? (node : Located) (field : String) : Option View :=
  (node.child? field).bind nodeView?

/-- The name in a field. -/
def nameIn? (node : Located) (field : String) : Option Text :=
  (node.child? field).map nameText

/-- The views of the child nodes that have one. -/
def itemViews (node : Located) : List View := node.childNodes.filterMap view?

/-- The type in a field. -/
def typeIn? (node : Located) (field : String) : Option TypeReference :=
  (node.child? field).bind fun part =>
    if part.isNode && part.kind = .typeReference then some ⟨part⟩ else none

/-- The node in a field. -/
def nodeIn? (node : Located) (field : String) : Option Located :=
  (node.child? field).filter isNode

/-- The elements of a tree, in pre-order. -/
def elements (root : Located) : List Element :=
  (root.nodes.filter fun node => node.kind = .element).map fun node => ⟨node⟩

/-- The module of a tree: the root itself or the first child that is
one. -/
def module (root : Located) : Except Fault Module :=
  if root.kind = .moduleDefinition then .ok ⟨root⟩
  else match root.nodeOfKind? .moduleDefinition with
    | some node => .ok ⟨node⟩
    | none => .error .noModule

end Located

/-! ### Modules and definitions -/

namespace ImportStatement

/-- The name of the module that is imported. -/
def name? (view : ImportStatement) : Option Text := view.node.nameIn? "name"

end ImportStatement

namespace TypeReference

/-- The name of a built-in type. -/
def primitive? (view : TypeReference) : Option Located := view.node.nodeOfKind? .primitiveType

/-- The name of the type. -/
def name? (view : TypeReference) : Option Text :=
  match view.primitive? with
  | some name => some name.trimmedText
  | none => (view.node.nodeOfKind? .userDefinedType).bind (·.nameIn? "name")

/-- The type is a built-in one. -/
def isPrimitive (view : TypeReference) : Bool := view.primitive?.isSome

/-- The type is followed by `?`. -/
def isNullable (view : TypeReference) : Bool := (view.node.child? "nullable").isSome

/-- The type is followed by `[]`. -/
def isList (view : TypeReference) : Bool := (view.node.tokenOfKind? (.token .lBracket)).isSome

end TypeReference

namespace TypeDefinition

/-- The name that is defined. -/
def name? (view : TypeDefinition) : Option Text := view.node.nameIn? "name"

/-- The type that the name stands for. -/
def type? (view : TypeDefinition) : Option TypeReference := view.node.typeIn? "type"

end TypeDefinition

namespace EnumDefinition

/-- The name that is defined. -/
def name? (view : EnumDefinition) : Option Text := view.node.nameIn? "name"

/-- The names of the members. -/
def members (view : EnumDefinition) : List Text :=
  match view.node.nodeIn? "members" with
  | some list => list.childNodes.filterMap (·.nameIn? "name")
  | none => []

end EnumDefinition

namespace ValueDefinition

/-- The name that is defined. -/
def name? (view : ValueDefinition) : Option Text := view.node.nameIn? "name"

/-- The type that is declared. -/
def type? (view : ValueDefinition) : Option TypeReference := view.node.typeIn? "type"

/-- The value. -/
def value? (view : ValueDefinition) : Option View := view.node.fieldView? "value"

end ValueDefinition

namespace PropertyDefinition

/-- The name of the parameter. -/
def name? (view : PropertyDefinition) : Option Text := view.node.nameIn? "name"

/-- The type of the parameter. -/
def type? (view : PropertyDefinition) : Option TypeReference := view.node.typeIn? "type"

/-- The value that it has when none is given. -/
def default? (view : PropertyDefinition) : Option View := view.node.fieldView? "default"

end PropertyDefinition

namespace FunctionDefinition

/-- The name that is defined. -/
def name? (view : FunctionDefinition) : Option Text := view.node.nameIn? "name"

/-- The head is a tag. -/
def isComponent (view : FunctionDefinition) : Bool :=
  (view.node.tokenOfKind? (.token .lessThan)).isSome

/-- The parameters. -/
def parameters (view : FunctionDefinition) : List PropertyDefinition :=
  ((view.node.fieldChildren "parameter").filter (·.isNode)).map fun node => ⟨node⟩

/-- The type that is declared for the result. -/
def returnType? (view : FunctionDefinition) : Option TypeReference :=
  view.node.typeIn? "return_type"

/-- The body. -/
def body? (view : FunctionDefinition) : Option View := view.node.fieldView? "body"

end FunctionDefinition

namespace View

/-- The name of a definition; none for a view that is no definition. -/
def definedName? : View → Option Text
  | typeDefinition view => view.name?
  | enumDefinition view => view.name?
  | valueDefinition view => view.name?
  | functionDefinition view => view.name?
  | _ => none

/-- True for the definitions of types, values and functions. -/
def isDefinition : View → Bool
  | typeDefinition _ | enumDefinition _ | valueDefinition _ | functionDefinition _ => true
  | _ => false

/-- The import, if the view is one. -/
def import? : View → Option ImportStatement
  | importStatement view => some view
  | _ => none

/-- The property, if the view is one. -/
def property? : View → Option PropertyValue
  | propertyValue view => some view
  | _ => none

end View

namespace Module

/-- The items. -/
def items (view : Module) : List View := view.node.itemViews

/-- The imports. -/
def imports (view : Module) : List ImportStatement := view.items.filterMap View.import?

/-- The definitions. -/
def definitions (view : Module) : List View := view.items.filter View.isDefinition

/-- The first element, which defines `root`. -/
def element? (view : Module) : Option Element :=
  (view.node.nodeIn? "element").map fun node => ⟨node⟩

/-- The first definition of a name. -/
def definition? (view : Module) (name : Text) : Option View :=
  view.definitions.find? fun item => item.definedName? = some name

end Module

/-! ### Markup -/

namespace PropertyValue

/-- The name of the property. -/
def name? (view : PropertyValue) : Option Text := view.node.nameIn? "name"

/-- The value of the property. -/
def value? (view : PropertyValue) : Option View := view.node.fieldView? "value"

end PropertyValue

namespace PropertyList

/-- The properties and the control constructs among them. -/
def items (view : PropertyList) : List View := view.node.itemViews

/-- The properties that depend on no condition. -/
def values (view : PropertyList) : List PropertyValue := view.items.filterMap View.property?

/-- The value of the first property of a name. -/
def get? (view : PropertyList) (name : Text) : Option View :=
  (view.values.find? fun property => property.name? = some name).bind (·.value?)

end PropertyList

namespace Element

/-- The name in the opening tag. -/
def name? (view : Element) : Option Text := view.node.nameIn? "name"

/-- The name in the closing tag. -/
def closeName? (view : Element) : Option Text := view.node.nameIn? "close_name"

/-- The tag closes itself. -/
def isSelfClosing (view : Element) : Bool :=
  (view.node.tokenOfKind? (.token .slash)).isSome && view.closeName?.isNone

/-- The name is followed by a colon. -/
def isEmbed (view : Element) : Bool := (view.node.tokenOfKind? (.token .colon)).isSome

/-- The type of the text in the body. -/
def textType? (view : Element) : Option Text := view.node.nameIn? "text_type"

/-- The body is kept as it stands. -/
def isRaw (view : Element) : Bool := (view.node.child? "raw").isSome

/-- The properties. -/
def properties? (view : Element) : Option PropertyList :=
  (view.node.nodeIn? "properties").map fun node => ⟨node⟩

/-- The body. -/
def content? (view : Element) : Option View := view.node.fieldView? "content"

end Element

namespace Content

/-- The items of the body. -/
def items (view : Content) : List View := view.node.itemViews

/-- Text may stand among the items. -/
def isMixed (view : Content) : Bool := view.node.kind ≠ .elementsExpression

end Content

namespace TextRun

/-- The text, with every reference in it decoded. -/
def value (view : TextRun) : Text := view.node.runText

/-- Reads the text: the value, unless a reference in the run has too many
digits. -/
def read (view : TextRun) : Except LiteralFault Text := view.node.readRun

end TextRun

/-! ### Values -/

namespace Interpolation

/-- The value in the braces. -/
def value? (view : Interpolation) : Option View := view.node.fieldView? "value"

end Interpolation

namespace Literal

/-- The value of the literal. -/
def value (view : Literal) : Except LiteralFault LiteralValue := view.node.literalValue

end Literal

namespace Identifier

/-- The name. -/
def name? (view : Identifier) : Option Text := view.node.nameIn? "name"

end Identifier

namespace Expression

/-- The operator. -/
def operator? (view : Expression) : Option Text :=
  ((view.node.child? "operator").bind (·.leaf?)).map (·.text)

/-- The arguments of a call. -/
def arguments (view : Expression) : List View :=
  match view.node.nodeIn? "arguments" with
  | some list => (list.fieldChildren "argument").filterMap (·.nodeView?)
  | none => []

end Expression

namespace ControlExpression

/-- The arms. -/
def arms (view : ControlExpression) : List ControlArm :=
  (view.node.childNodes.filter fun node => node.kind.isArm).map fun node => ⟨node⟩

/-- The name that a `for` gives to each item. -/
def itemName? (view : ControlExpression) : Option Text := view.node.nameIn? "item"

/-- The name that a `for` gives to the place of an item. -/
def indexName? (view : ControlExpression) : Option Text := view.node.nameIn? "index"

end ControlExpression

namespace ControlArm

/-- The texts of the patterns. -/
def patterns (view : ControlArm) : List Text :=
  ((view.node.fieldChildren "pattern").filter (·.isNode)).map (·.trimmedText)

end ControlArm

end MarkupSyntax
