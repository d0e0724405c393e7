import MacroExpansion.Tree.Basic

/-! # Surface text

The C-like rendering of every node, used by traces, by textual comparison and by macros that turn
code into text. Nested operands that bind more loosely are parenthesized, so that grouping shows;
branches and loop bodies are written as they are, with braces only around blocks. -/

namespace MacroExpansion

/-- Texts in sequence with a separator between neighbours. -/
def joinTexts (separator : String) : List String → String
  | [] => ""
  | [text] => text
  | text :: rest => text ++ separator ++ joinTexts separator rest

/-- Parentheses around a text, if they are asked for. -/
def parenthesizeIf (needed : Bool) (text : String) : String :=
  if needed then "(" ++ text ++ ")" else text

/-- Type arguments or type parameters between angle brackets; nothing when there are none. -/
def angleList (names : List String) : String :=
  if names.isEmpty then "" else "<" ++ joinTexts ", " names ++ ">"

/-- A declared name, with its type in front when one is written. -/
def typedName (type : TypeRef) (name : String) : String :=
  match type with
  | .inferred => name
  | type => type.name ++ " " ++ name

/-- Statement texts as a block: between braces, with a blank on either side. -/
def bracedText (statements : List String) : String :=
  if statements.isEmpty then "\x7b \x7d" else "\x7b " ++ joinTexts " " statements ++ " \x7d"

mutual

/-- Surface text of an expression. -/
def Expr.text : Expr → String
  | .literal value _ => value.text
  | .name name _ => name
  | .call call => call.text
  | .unary op operand _ =>
      op.leading ++ parenthesizeIf operand.needsParens operand.text ++ op.trailing
  | .binary op lhs rhs _ =>
      parenthesizeIf lhs.needsParens lhs.text ++ " " ++ op.symbol ++ " "
        ++ parenthesizeIf rhs.needsParens rhs.text
  | .assign target value _ => target.text ++ " = " ++ value.text
  | .lambda lambda => lambda.text

/-- Surface text of a call. -/
def Call.text : Call → String
  | ⟨callee, typeArgs, args, _⟩ =>
      callee ++ angleList (typeArgs.map TypeRef.name) ++ "(" ++ joinTexts ", " (exprTexts args) ++ ")"

/-- Surface text of a lambda. -/
def Lambda.text : Lambda → String
  | ⟨params, body, _⟩ => "(" ++ joinTexts ", " (paramTexts params) ++ ") => " ++ body.text

/-- Surface text of a lambda body. -/
def LambdaBody.text : LambdaBody → String
  | .expr expr => expr.text
  | .block block => block.text

/-- Surface text of a parameter. -/
def Param.text : Param → String
  | ⟨name, type, default⟩ => typedName type name ++ assignedText default

/-- Surface text of a statement. -/
def Stmt.text : Stmt → String
  | .empty _ => ";"
  | .expr expr _ => expr.text ++ ";"
  | .localVar type name init _ => type.name ++ " " ++ name ++ assignedText init ++ ";"
  | .block block => block.text
  | .branch condition thenBranch elseBranch _ =>
      "if (" ++ condition.text ++ ") " ++ thenBranch.text ++ elseText elseBranch
  | .loop condition body _ => "while (" ++ condition.text ++ ") " ++ body.text
  | .ret value _ => "return" ++ returnedText value ++ ";"

/-- Surface text of a block. -/
def Block.text : Block → String
  | ⟨statements, _⟩ => bracedText (stmtTexts statements)

/-- Texts of a list of expressions. -/
def exprTexts : List Expr → List String
  | [] => []
  | expr :: rest => expr.text :: exprTexts rest

/-- Texts of a list of parameters. -/
def paramTexts : List Param → List String
  | [] => []
  | param :: rest => param.text :: paramTexts rest

/-- Texts of a list of statements. -/
def stmtTexts : List Stmt → List String
  | [] => []
  | stmt :: rest => stmt.text :: stmtTexts rest

/-- An initial or default value after its equals sign. -/
def assignedText : Option Expr → String
  | none => ""
  | some expr => " = " ++ expr.text

/-- A returned value after a blank. -/
def returnedText : Option Expr → String
  | none => ""
  | some expr => " " ++ expr.text

/-- The second branch of a conditional after its keyword. -/
def elseText : Option Stmt → String
  | none => ""
  | some stmt => " else " ++ stmt.text

end

/-- Expression texts are taken one by one. -/
theorem exprTexts_eq_map (exprs : List Expr) : exprTexts exprs = exprs.map Expr.text := by
  induction exprs with
  | nil => rfl
  | cons expr rest ih => rw [exprTexts, ih, List.map_cons]

/-- Parameter texts are taken one by one. -/
theorem paramTexts_eq_map (params : List Param) : paramTexts params = params.map Param.text := by
  induction params with
  | nil => rfl
  | cons param rest ih => rw [paramTexts, ih, List.map_cons]

/-- Statement texts are taken one by one. -/
theorem stmtTexts_eq_map (stmts : List Stmt) : stmtTexts stmts = stmts.map Stmt.text := by
  induction stmts with
  | nil => rfl
  | cons stmt rest ih => rw [stmtTexts, ih, List.map_cons]

/-- Surface text of a function declaration: attributes, modifiers, header and body. -/
def FunctionDecl.text (decl : FunctionDecl) : String :=
  String.join (decl.attributes.map fun name => "[" ++ name ++ "] ")
    ++ (if decl.isStatic then "static " else "")
    ++ decl.returnType.name ++ " " ++ decl.name ++ angleList decl.typeParams
    ++ "(" ++ joinTexts ", " (decl.params.map Param.text) ++ ") " ++ decl.body.text

end MacroExpansion
