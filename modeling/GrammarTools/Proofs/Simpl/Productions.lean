import GrammarTools.Proofs.Derivation
import GrammarTools.Simpl.Token

/-!
# The productions of Simpl

The grammar of Simpl over tokens. It is ambiguous: nothing separates
statements, a sign may begin a statement as well as continue one, and binary
operators are not ranked. The arguments of a call have no parentheses around
them, so a call in front of a sign has either an argument that goes on or a
statement behind it. What the rules do in such places is one of the ways that
the grammar offers, so it derives no other sources than the rules accept.
-/

namespace GrammarTools.Simpl

/-- The names of the rules. -/
inductive Nonterminal where
  | statement
  | declaration
  | typeDeclaration
  | contractDeclaration
  | functionDeclaration
  | paramList
  | paramDeclaration
  | typeIdentifier
  | inlineFunctionDeclaration
  | expression
  | singleExpression
  | loopedExpression
  | parenthisedExpression
  | pipeExpression
  | subpipeBranchExpression
  | subpipeExpression
  | callExpression
  | paramListCall
  | paramDefinition
  | simpleExpression
  | unaryExpression
  | binaryExpression
  | arrayLiteral

open Pattern

/-- The binary operators. -/
def binaryOperator : Pattern Nonterminal Token :=
  oneOf .star [.slash, .percent, .plus, .minus, .equals, .notEquals, .greater, .greaterEquals,
    .less, .lessEquals, .andKeyword, .orKeyword]

/-- What each rule derives. A declaration ends with a dot that ends its line. -/
def productions : Productions Nonterminal Token
  | .statement => rule .declaration ||| rule .expression
  | .declaration =>
    anyOf (rule .typeDeclaration) [rule .contractDeclaration, rule .functionDeclaration] ++
      lineEnd .dot
  | .typeDeclaration => token .typeKeyword ++ rule .typeIdentifier ++ opt (rule .paramList)
  | .contractDeclaration =>
    token .contractKeyword ++ rule .typeIdentifier ++ opt (rule .paramList)
  | .functionDeclaration =>
    token .funcKeyword ++ opt (rule .typeIdentifier) ++ token .fieldName ++
      opt (rule .paramList) ++ rule .typeIdentifier ++ rule .expression
  | .paramList => plus (rule .paramDeclaration)
  | .paramDeclaration => token .fieldName ++ token .colon ++ rule .typeIdentifier
  | .typeIdentifier => token .typeName ||| rule .inlineFunctionDeclaration
  | .inlineFunctionDeclaration =>
    token .openBrace ++ many (rule .paramDeclaration) ++ token .closeBrace ++
      rule .typeIdentifier
  | .expression =>
    anyOf (rule .simpleExpression) [rule .subpipeExpression, rule .pipeExpression,
      rule .callExpression, rule .loopedExpression]
  | .singleExpression =>
    anyOf (token .number) [token .string, rule .arrayLiteral, token .trueKeyword,
      token .falseKeyword, token .fieldName]
  | .loopedExpression => rule .parenthisedExpression ++ token .caret
  | .parenthisedExpression => token .openParen ++ rule .expression ++ token .closeParen
  | .pipeExpression =>
    rule .expression ++ token .semicolon ++
      anyOf (rule .simpleExpression) [rule .callExpression, rule .subpipeExpression,
        rule .loopedExpression]
  | .subpipeBranchExpression =>
    token .pipe ++ rule .expression ++ token .pipe ++
      anyOf (rule .simpleExpression) [rule .callExpression, rule .loopedExpression]
  | .subpipeExpression =>
    separated (rule .subpipeBranchExpression) .comma ++
      opt (token .comma ++ (rule .callExpression ||| rule .simpleExpression))
  | .callExpression =>
    (token .fieldName ||| rule .typeIdentifier) ++ opt (rule .paramListCall)
  | .paramListCall => plus (rule .paramDefinition)
  | .paramDefinition => token .fieldName ++ token .colon ++ rule .simpleExpression
  | .simpleExpression =>
    anyOf (rule .singleExpression) [rule .unaryExpression, rule .binaryExpression,
      rule .parenthisedExpression]
  | .unaryExpression => oneOf .plus [.minus, .notKeyword] ++ rule .simpleExpression
  | .binaryExpression => rule .simpleExpression ++ binaryOperator ++ rule .simpleExpression
  | .arrayLiteral => token .openBracket ++ many (rule .simpleExpression) ++ token .closeBracket

/-- A source file is a row of statements. -/
def sourceFile : Pattern Nonterminal Token := many (rule .statement)

theorem productions_isSolid (n : Nonterminal) : (productions n).isSolid := by
  cases n <;> rfl

end GrammarTools.Simpl
