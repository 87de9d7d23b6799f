import GrammarTools.Language

/-!
# Node kinds and fields of PeoPl

The numbers of kinds and fields are their places in the tables below.
-/

namespace GrammarTools.Peopl

/-- The kinds of nodes. -/
inductive Kind where
  | error
  | sourceFile
  | comment
  | namespaceState
  | implementationStatement
  | constantsStatement
  | typeDefinition
  | enumTypeDefinition
  | simpleTypeDefinition
  | paramList
  | paramDefinition
  | argumentName
  | typeName
  | typeIdentifier
  | nominalType
  | flatNominalType
  | typeArguments
  | tupleStructuralType
  | lambdaStructuralType
  | functionDefinition
  | nothing
  | never
  | boolLiteral
  | intLiteral
  | floatLiteral
  | stringLiteral
  | tupleLiteral
  | unaryExpression
  | binaryExpression
  | multiplicativeOperator
  | additiveOperator
  | comparativeOperator
  | notOperator
  | andOperator
  | orOperator
  | parenthisizedExpression
  | callExpression
  | callParamList
  | callParam
  | pipedExpression
  | pipeOperator
  | branchedExpression
  | branchExpression
  | captureGroup
  | loopedExpression
  | lambdaExpression
  | accessExpression
  | namespaceKeyword
  | typeKeyword
  | funcKeyword
  | trueKeyword
  | falseKeyword
  | dotDot
  | dot
  | comma
  | colon
  | colonColon
  | arrow
  | fatArrow
  | openBracket
  | closeBracket
  | openBrace
  | closeBrace
  | openParen
  | closeParen
  | star
  | slash
  | percent
  | plus
  | minus
  | equals
  | notEquals
  | greater
  | greaterEquals
  | less
  | lessEquals
  | question
  | semicolon
  | pipe
  | caret
deriving DecidableEq, Repr, Inhabited

namespace Kind

/-- The name that a kind has in trees. -/
def name : Kind → String
  | error => errorKindName
  | sourceFile => "source_file"
  | comment => "comment"
  | namespaceState => "namespace_state"
  | implementationStatement => "implementation_statement"
  | constantsStatement => "constants_statement"
  | typeDefinition => "type_definition"
  | enumTypeDefinition => "enum_type_definition"
  | simpleTypeDefinition => "simple_type_definition"
  | paramList => "param_list"
  | paramDefinition => "param_definition"
  | argumentName => "argument_name"
  | typeName => "type_name"
  | typeIdentifier => "type_identifier"
  | nominalType => "nominal_type"
  | flatNominalType => "flat_nominal_type"
  | typeArguments => "type_arguments"
  | tupleStructuralType => "tuple_structural_type"
  | lambdaStructuralType => "lambda_structural_type"
  | functionDefinition => "function_definition"
  | nothing => "nothing"
  | never => "never"
  | boolLiteral => "bool_literal"
  | intLiteral => "int_literal"
  | floatLiteral => "float_literal"
  | stringLiteral => "string_literal"
  | tupleLiteral => "tuple_literal"
  | unaryExpression => "unary_expression"
  | binaryExpression => "binary_expression"
  | multiplicativeOperator => "multiplicative_operator"
  | additiveOperator => "additive_operator"
  | comparativeOperator => "comparative_operator"
  | notOperator => "not_operator"
  | andOperator => "and_operator"
  | orOperator => "or_operator"
  | parenthisizedExpression => "parenthisized_expression"
  | callExpression => "call_expression"
  | callParamList => "call_param_list"
  | callParam => "call_param"
  | pipedExpression => "piped_expression"
  | pipeOperator => "pipe_operator"
  | branchedExpression => "branched_expression"
  | branchExpression => "branch_expression"
  | captureGroup => "capture_group"
  | loopedExpression => "looped_expression"
  | lambdaExpression => "lambda_expression"
  | accessExpression => "access_expression"
  | namespaceKeyword => "namespace"
  | typeKeyword => "type"
  | funcKeyword => "func"
  | trueKeyword => "true"
  | falseKeyword => "false"
  | dotDot => ".."
  | dot => "."
  | comma => ","
  | colon => ":"
  | colonColon => "::"
  | arrow => "->"
  | fatArrow => "=>"
  | openBracket => "["
  | closeBracket => "]"
  | openBrace => "\x7b"
  | closeBrace => "\x7d"
  | openParen => "("
  | closeParen => ")"
  | star => "*"
  | slash => "/"
  | percent => "%"
  | plus => "+"
  | minus => "-"
  | equals => "="
  | notEquals => "!="
  | greater => ">"
  | greaterEquals => ">="
  | less => "<"
  | lessEquals => "<="
  | question => "?"
  | semicolon => ";"
  | pipe => "|"
  | caret => "^"

/-- All kinds, in the order of the table. -/
def all : List Kind := [
  .error, .sourceFile, .comment, .namespaceState, .implementationStatement,
  .constantsStatement, .typeDefinition, .enumTypeDefinition, .simpleTypeDefinition, .paramList,
  .paramDefinition, .argumentName, .typeName, .typeIdentifier, .nominalType, .flatNominalType,
  .typeArguments, .tupleStructuralType, .lambdaStructuralType, .functionDefinition, .nothing,
  .never, .boolLiteral, .intLiteral, .floatLiteral, .stringLiteral, .tupleLiteral,
  .unaryExpression, .binaryExpression, .multiplicativeOperator, .additiveOperator,
  .comparativeOperator, .notOperator, .andOperator, .orOperator, .parenthisizedExpression,
  .callExpression, .callParamList, .callParam, .pipedExpression, .pipeOperator,
  .branchedExpression, .branchExpression, .captureGroup, .loopedExpression, .lambdaExpression,
  .accessExpression, .namespaceKeyword, .typeKeyword, .funcKeyword, .trueKeyword,
  .falseKeyword, .dotDot, .dot, .comma, .colon, .colonColon, .arrow, .fatArrow, .openBracket,
  .closeBracket, .openBrace, .closeBrace, .openParen, .closeParen, .star, .slash, .percent,
  .plus, .minus, .equals, .notEquals, .greater, .greaterEquals, .less, .lessEquals, .question,
  .semicolon, .pipe, .caret]

/-- Whether nodes of a kind follow a rule. The kinds of literal tokens do not, and come
    last. -/
def isNamed (kind : Kind) : Bool := kind.ctorIdx < namespaceKeyword.ctorIdx

/-- The number of a kind. -/
def id (kind : Kind) : KindId := ⟨kind.ctorIdx.toUInt16⟩

instance : Coe Kind KindId := ⟨id⟩

/-- The table of kinds. -/
def table : List NodeKind := all.map fun kind => ⟨kind.name, kind.isNamed⟩

end Kind

/-- The parts that a node can fill in the node above. -/
inductive Field where
  | body
  | captureGroup
  | caseType
  | command
  | defaultValue
  | inputType
  | left
  | metaType
  | name
  | operand
  | operator
  | outputType
  | params
  | returnType
  | right
  | scope
  | type
  | typeArguments
  | typeName
  | value
deriving DecidableEq, Repr, Inhabited

namespace Field

/-- The name of a field. -/
def fieldName : Field → String
  | body => "body"
  | captureGroup => "capture_group"
  | caseType => "case_type"
  | command => "command"
  | defaultValue => "default_value"
  | inputType => "input_type"
  | left => "left"
  | metaType => "meta_type"
  | name => "name"
  | operand => "operand"
  | operator => "operator"
  | outputType => "output_type"
  | params => "params"
  | returnType => "return_type"
  | right => "right"
  | scope => "scope"
  | type => "type"
  | typeArguments => "type_arguments"
  | typeName => "type_name"
  | value => "value"

/-- All fields, in the order of the table. -/
def all : List Field := [
  .body, .captureGroup, .caseType, .command, .defaultValue, .inputType, .left, .metaType,
  .name, .operand, .operator, .outputType, .params, .returnType, .right, .scope, .type,
  .typeArguments, .typeName, .value]

/-- The number of a field. -/
def id (field : Field) : FieldId := ⟨field.ctorIdx.toUInt16⟩

instance : Coe Field FieldId := ⟨id⟩

/-- The table of fields. -/
def table : List String := all.map fieldName

end Field

end GrammarTools.Peopl
