import MacroExpansion.Tree.Basic
import MacroExpansion.Json.Basic

/-! # Nodes as JSON

Every node has one JSON form. A record is written as an object with one field per part, absent
optional parts as null. An alternative is written as its name alone when it carries nothing, else as
an object whose one field is named for it.

Reading accepts a little more: unknown fields are passed over, optional parts may be missing, and an
alternative that carries nothing may carry null. A record of its own, such as a call or a block, may
be given as the sequence of all its parts; the fields of an alternative, such as those of a unary
expression, have to be named. Numbers are read only if they are integers that fit. -/

namespace MacroExpansion

/-! ## Leaves -/

namespace Span

/-- The record of both offsets. -/
def toJson (span : Span) : Json :=
  .object [("start", .int span.start.toNat), ("end", .int span.stop.toNat)]

/-- Reads a span. -/
def ofJson? (json : Json) : Option Span := do
  let [start, stop] ← json.record? ["start", "end"] | none
  return ⟨← (← start).asUInt64?, ← (← stop).asUInt64?⟩

end Span

namespace TypeRef

/-- A type as an alternative named for its kind. -/
def toJson : TypeRef → Json
  | .void => .string "Void"
  | .int => .string "Int"
  | .bool => .string "Bool"
  | .string => .string "String"
  | .object => .string "Object"
  | .statement => .string "Statement"
  | .block => .string "Block"
  | .quote => .object [("Quote", .null)]
  | .quoteOf result => .object [("Quote", result.toJson)]
  | .named name => .object [("Named", .string name)]
  | .generic name => .object [("Generic", .string name)]
  | .inferred => .string "Inferred"

/-- Reads a type; the first argument bounds the nesting. A quote has to carry null or its result. -/
def read : Nat → Json → Option TypeRef
  | 0, _ => none
  | _ + 1, .object [("Quote", .null)] => some .quote
  | fuel + 1, .object [("Quote", result)] => (read fuel result).map .quoteOf
  | _ + 1, json =>
      match json.variant? with
      | some ("Void", .null) => some .void
      | some ("Int", .null) => some .int
      | some ("Bool", .null) => some .bool
      | some ("String", .null) => some .string
      | some ("Object", .null) => some .object
      | some ("Statement", .null) => some .statement
      | some ("Block", .null) => some .block
      | some ("Inferred", .null) => some .inferred
      | some ("Named", .string name) => some (.named name)
      | some ("Generic", .string name) => some (.generic name)
      | _ => none

/-- Reads a type. -/
def ofJson? (json : Json) : Option TypeRef :=
  read json.depth json

end TypeRef

namespace Literal

/-- A constant as an alternative named for its kind. -/
def toJson : Literal → Json
  | .int value => .object [("Int", .int value.toInt)]
  | .bool value => .object [("Bool", .bool value)]
  | .string value => .object [("String", .string value)]
  | .null => .string "Null"

/-- Reads a constant. -/
def ofJson? (json : Json) : Option Literal :=
  match json.variant? with
  | some ("Int", value) => value.asInt64?.map .int
  | some ("Bool", .bool value) => some (.bool value)
  | some ("String", .string value) => some (.string value)
  | some ("Null", .null) => some .null
  | _ => none

end Literal

namespace UnaryOp

/-- The name of an operator. -/
def toJson : UnaryOp → Json
  | .neg => .string "Neg"
  | .not => .string "Not"
  | .preIncrement => .string "PreIncrement"
  | .preDecrement => .string "PreDecrement"
  | .postIncrement => .string "PostIncrement"
  | .postDecrement => .string "PostDecrement"

/-- Reads an operator. -/
def ofJson? (json : Json) : Option UnaryOp :=
  match json.variant? with
  | some ("Neg", .null) => some .neg
  | some ("Not", .null) => some .not
  | some ("PreIncrement", .null) => some .preIncrement
  | some ("PreDecrement", .null) => some .preDecrement
  | some ("PostIncrement", .null) => some .postIncrement
  | some ("PostDecrement", .null) => some .postDecrement
  | _ => none

end UnaryOp

namespace BinaryOp

/-- The name of an operator. -/
def toJson : BinaryOp → Json
  | .add => .string "Add"
  | .sub => .string "Sub"
  | .mul => .string "Mul"
  | .div => .string "Div"
  | .eq => .string "Eq"
  | .ne => .string "Ne"
  | .lt => .string "Lt"
  | .le => .string "Le"
  | .gt => .string "Gt"
  | .ge => .string "Ge"
  | .and => .string "And"
  | .or => .string "Or"

/-- Reads an operator. -/
def ofJson? (json : Json) : Option BinaryOp :=
  match json.variant? with
  | some ("Add", .null) => some .add
  | some ("Sub", .null) => some .sub
  | some ("Mul", .null) => some .mul
  | some ("Div", .null) => some .div
  | some ("Eq", .null) => some .eq
  | some ("Ne", .null) => some .ne
  | some ("Lt", .null) => some .lt
  | some ("Le", .null) => some .le
  | some ("Gt", .null) => some .gt
  | some ("Ge", .null) => some .ge
  | some ("And", .null) => some .and
  | some ("Or", .null) => some .or
  | _ => none

end BinaryOp

/-! ## The mutual family, written -/

mutual

/-- The JSON form of an expression. -/
def Expr.toJson : Expr → Json
  | .literal value span =>
      .object [("Literal", .object [("value", value.toJson), ("span", span.toJson)])]
  | .name name span =>
      .object [("Name", .object [("name", .string name), ("span", span.toJson)])]
  | .call call => .object [("Call", call.toJson)]
  | .unary op operand span =>
      .object [("Unary", .object
        [("op", op.toJson), ("operand", operand.toJson), ("span", span.toJson)])]
  | .binary op lhs rhs span =>
      .object [("Binary", .object
        [("op", op.toJson), ("lhs", lhs.toJson), ("rhs", rhs.toJson), ("span", span.toJson)])]
  | .assign target value span =>
      .object [("Assign", .object
        [("target", target.toJson), ("value", value.toJson), ("span", span.toJson)])]
  | .lambda lambda => .object [("Lambda", lambda.toJson)]

/-- The JSON form of a call. -/
def Call.toJson : Call → Json
  | ⟨callee, typeArgs, args, span⟩ =>
      .object [("callee", .string callee), ("type_args", .array (typeArgs.map TypeRef.toJson)),
        ("args", .array (exprsToJson args)), ("span", span.toJson)]

/-- The JSON form of a lambda. -/
def Lambda.toJson : Lambda → Json
  | ⟨params, body, span⟩ =>
      .object [("params", .array (paramsToJson params)), ("body", body.toJson),
        ("span", span.toJson)]

/-- The JSON form of a lambda body. -/
def LambdaBody.toJson : LambdaBody → Json
  | .expr expr => .object [("Expr", expr.toJson)]
  | .block block => .object [("Block", block.toJson)]

/-- The JSON form of a parameter. -/
def Param.toJson : Param → Json
  | ⟨name, type, default⟩ =>
      .object [("name", .string name), ("ty", type.toJson), ("default", optExprToJson default)]

/-- The JSON form of a statement. -/
def Stmt.toJson : Stmt → Json
  | .empty span => .object [("Empty", .object [("span", span.toJson)])]
  | .expr expr span =>
      .object [("Expr", .object [("expr", expr.toJson), ("span", span.toJson)])]
  | .localVar type name init span =>
      .object [("Local", .object [("ty", type.toJson), ("name", .string name),
        ("init", optExprToJson init), ("span", span.toJson)])]
  | .block block => .object [("Block", block.toJson)]
  | .branch condition thenBranch elseBranch span =>
      .object [("If", .object [("condition", condition.toJson), ("then_branch", thenBranch.toJson),
        ("else_branch", optStmtToJson elseBranch), ("span", span.toJson)])]
  | .loop condition body span =>
      .object [("While", .object
        [("condition", condition.toJson), ("body", body.toJson), ("span", span.toJson)])]
  | .ret value span =>
      .object [("Return", .object [("value", optExprToJson value), ("span", span.toJson)])]

/-- The JSON form of a block. -/
def Block.toJson : Block → Json
  | ⟨statements, span⟩ =>
      .object [("statements", .array (stmtsToJson statements)), ("span", span.toJson)]

/-- The JSON forms of expressions in sequence. -/
def exprsToJson : List Expr → List Json
  | [] => []
  | expr :: rest => expr.toJson :: exprsToJson rest

/-- The JSON forms of parameters in sequence. -/
def paramsToJson : List Param → List Json
  | [] => []
  | param :: rest => param.toJson :: paramsToJson rest

/-- The JSON forms of statements in sequence. -/
def stmtsToJson : List Stmt → List Json
  | [] => []
  | stmt :: rest => stmt.toJson :: stmtsToJson rest

/-- An optional expression; null when absent. -/
def optExprToJson : Option Expr → Json
  | none => .null
  | some expr => expr.toJson

/-- An optional statement; null when absent. -/
def optStmtToJson : Option Stmt → Json
  | none => .null
  | some stmt => stmt.toJson

end

/-- Expressions are written one by one. -/
theorem exprsToJson_eq_map (exprs : List Expr) : exprsToJson exprs = exprs.map Expr.toJson := by
  induction exprs with
  | nil => rfl
  | cons expr rest ih => rw [exprsToJson, ih, List.map_cons]

/-- Parameters are written one by one. -/
theorem paramsToJson_eq_map (params : List Param) : paramsToJson params = params.map Param.toJson := by
  induction params with
  | nil => rfl
  | cons param rest ih => rw [paramsToJson, ih, List.map_cons]

/-- Statements are written one by one. -/
theorem stmtsToJson_eq_map (stmts : List Stmt) : stmtsToJson stmts = stmts.map Stmt.toJson := by
  induction stmts with
  | nil => rfl
  | cons stmt rest ih => rw [stmtsToJson, ih, List.map_cons]

/-! ## The mutual family, read

The first argument of every reader bounds the nesting that it enters; the depth of the value is
always enough. -/

mutual

/-- Reads an expression. -/
def Expr.read : Nat → Json → Option Expr
  | 0, _ => none
  | fuel + 1, json => do
      match ← json.variant? with
      | ("Literal", payload) =>
          let [value, span] ← payload.fields? ["value", "span"] | none
          return .literal (← Literal.ofJson? (← value)) (← Span.ofJson? (← span))
      | ("Name", payload) =>
          let [name, span] ← payload.fields? ["name", "span"] | none
          return .name (← (← name).asString?) (← Span.ofJson? (← span))
      | ("Call", payload) => return .call (← Call.read fuel payload)
      | ("Unary", payload) =>
          let [op, operand, span] ← payload.fields? ["op", "operand", "span"] | none
          return .unary (← UnaryOp.ofJson? (← op)) (← Expr.read fuel (← operand))
            (← Span.ofJson? (← span))
      | ("Binary", payload) =>
          let [op, lhs, rhs, span] ← payload.fields? ["op", "lhs", "rhs", "span"] | none
          return .binary (← BinaryOp.ofJson? (← op)) (← Expr.read fuel (← lhs))
            (← Expr.read fuel (← rhs)) (← Span.ofJson? (← span))
      | ("Assign", payload) =>
          let [target, value, span] ← payload.fields? ["target", "value", "span"] | none
          return .assign (← Expr.read fuel (← target)) (← Expr.read fuel (← value))
            (← Span.ofJson? (← span))
      | ("Lambda", payload) => return .lambda (← Lambda.read fuel payload)
      | _ => none

/-- Reads a call. -/
def Call.read : Nat → Json → Option Call
  | 0, _ => none
  | fuel + 1, json => do
      let [callee, typeArgs, args, span] ← json.record? ["callee", "type_args", "args", "span"]
        | none
      return ⟨← (← callee).asString?, ← (← typeArgs).asListOf? TypeRef.ofJson?,
        ← (← args).asListOf? (Expr.read fuel), ← Span.ofJson? (← span)⟩

/-- Reads a lambda. -/
def Lambda.read : Nat → Json → Option Lambda
  | 0, _ => none
  | fuel + 1, json => do
      let [params, body, span] ← json.record? ["params", "body", "span"] | none
      return ⟨← (← params).asListOf? (Param.read fuel), ← LambdaBody.read fuel (← body),
        ← Span.ofJson? (← span)⟩

/-- Reads a lambda body. -/
def LambdaBody.read : Nat → Json → Option LambdaBody
  | 0, _ => none
  | fuel + 1, json => do
      match ← json.variant? with
      | ("Expr", payload) => return .expr (← Expr.read fuel payload)
      | ("Block", payload) => return .block (← Block.read fuel payload)
      | _ => none

/-- Reads a parameter. -/
def Param.read : Nat → Json → Option Param
  | 0, _ => none
  | fuel + 1, json => do
      let [name, type, default] ← json.record? ["name", "ty", "default"] | none
      return ⟨← (← name).asString?, ← TypeRef.ofJson? (← type),
        ← Json.optional? (Expr.read fuel) default⟩

/-- Reads a statement. -/
def Stmt.read : Nat → Json → Option Stmt
  | 0, _ => none
  | fuel + 1, json => do
      match ← json.variant? with
      | ("Empty", payload) =>
          let [span] ← payload.fields? ["span"] | none
          return .empty (← Span.ofJson? (← span))
      | ("Expr", payload) =>
          let [expr, span] ← payload.fields? ["expr", "span"] | none
          return .expr (← Expr.read fuel (← expr)) (← Span.ofJson? (← span))
      | ("Local", payload) =>
          let [type, name, init, span] ← payload.fields? ["ty", "name", "init", "span"] | none
          return .localVar (← TypeRef.ofJson? (← type)) (← (← name).asString?)
            (← Json.optional? (Expr.read fuel) init) (← Span.ofJson? (← span))
      | ("Block", payload) => return .block (← Block.read fuel payload)
      | ("If", payload) =>
          let [condition, thenBranch, elseBranch, span]
            ← payload.fields? ["condition", "then_branch", "else_branch", "span"] | none
          return .branch (← Expr.read fuel (← condition)) (← Stmt.read fuel (← thenBranch))
            (← Json.optional? (Stmt.read fuel) elseBranch) (← Span.ofJson? (← span))
      | ("While", payload) =>
          let [condition, body, span] ← payload.fields? ["condition", "body", "span"] | none
          return .loop (← Expr.read fuel (← condition)) (← Stmt.read fuel (← body))
            (← Span.ofJson? (← span))
      | ("Return", payload) =>
          let [value, span] ← payload.fields? ["value", "span"] | none
          return .ret (← Json.optional? (Expr.read fuel) value) (← Span.ofJson? (← span))
      | _ => none

/-- Reads a block. -/
def Block.read : Nat → Json → Option Block
  | 0, _ => none
  | fuel + 1, json => do
      let [statements, span] ← json.record? ["statements", "span"] | none
      return ⟨← (← statements).asListOf? (Stmt.read fuel), ← Span.ofJson? (← span)⟩

end

/-- Reads an expression. -/
def Expr.ofJson? (json : Json) : Option Expr := Expr.read json.depth json

/-- Reads a call. -/
def Call.ofJson? (json : Json) : Option Call := Call.read json.depth json

/-- Reads a lambda. -/
def Lambda.ofJson? (json : Json) : Option Lambda := Lambda.read json.depth json

/-- Reads a parameter. -/
def Param.ofJson? (json : Json) : Option Param := Param.read json.depth json

/-- Reads a statement. -/
def Stmt.ofJson? (json : Json) : Option Stmt := Stmt.read json.depth json

/-- Reads a block. -/
def Block.ofJson? (json : Json) : Option Block := Block.read json.depth json

/-! ## Declarations and files -/

namespace FunctionDecl

/-- The JSON form of a function declaration. -/
def toJson (decl : FunctionDecl) : Json :=
  .object [("name", .string decl.name), ("is_static", .bool decl.isStatic),
    ("type_params", .array (decl.typeParams.map .string)),
    ("params", .array (decl.params.map Param.toJson)), ("return_type", decl.returnType.toJson),
    ("body", decl.body.toJson), ("attributes", .array (decl.attributes.map .string)),
    ("span", decl.span.toJson)]

/-- Reads a function declaration. -/
def ofJson? (json : Json) : Option FunctionDecl := do
  let [name, isStatic, typeParams, params, returnType, body, attributes, span] ← json.record?
    ["name", "is_static", "type_params", "params", "return_type", "body", "attributes", "span"]
    | none
  return ⟨← (← name).asString?, ← (← isStatic).asBool?, ← (← typeParams).asListOf? Json.asString?,
    ← (← params).asListOf? Param.ofJson?, ← TypeRef.ofJson? (← returnType),
    ← Block.ofJson? (← body), ← (← attributes).asListOf? Json.asString?, ← Span.ofJson? (← span)⟩

end FunctionDecl

namespace AccessorKind

/-- The name of an accessor kind. -/
def toJson : AccessorKind → Json
  | .get => .string "Get"
  | .set => .string "Set"

/-- Reads an accessor kind. -/
def ofJson? (json : Json) : Option AccessorKind :=
  match json.variant? with
  | some ("Get", .null) => some .get
  | some ("Set", .null) => some .set
  | _ => none

end AccessorKind

namespace Accessor

/-- The JSON form of an accessor. -/
def toJson (accessor : Accessor) : Json :=
  .object [("kind", accessor.kind.toJson), ("body", accessor.body.toJson),
    ("span", accessor.span.toJson)]

/-- Reads an accessor. -/
def ofJson? (json : Json) : Option Accessor := do
  let [kind, body, span] ← json.record? ["kind", "body", "span"] | none
  return ⟨← AccessorKind.ofJson? (← kind), ← Block.ofJson? (← body), ← Span.ofJson? (← span)⟩

end Accessor

namespace PropertyDecl

/-- The JSON form of a property. -/
def toJson (decl : PropertyDecl) : Json :=
  .object [("name", .string decl.name), ("ty", decl.type.toJson),
    ("accessors", .array (decl.accessors.map Accessor.toJson)), ("span", decl.span.toJson)]

/-- Reads a property. -/
def ofJson? (json : Json) : Option PropertyDecl := do
  let [name, type, accessors, span] ← json.record? ["name", "ty", "accessors", "span"] | none
  return ⟨← (← name).asString?, ← TypeRef.ofJson? (← type),
    ← (← accessors).asListOf? Accessor.ofJson?, ← Span.ofJson? (← span)⟩

end PropertyDecl

namespace Member

/-- The JSON form of a member. -/
def toJson : Member → Json
  | .function decl => .object [("Function", decl.toJson)]
  | .property decl => .object [("Property", decl.toJson)]

/-- Reads a member. -/
def ofJson? (json : Json) : Option Member :=
  match json.variant? with
  | some ("Function", payload) => (FunctionDecl.ofJson? payload).map .function
  | some ("Property", payload) => (PropertyDecl.ofJson? payload).map .property
  | _ => none

end Member

namespace TypeDecl

/-- The JSON form of a type declaration. -/
def toJson (decl : TypeDecl) : Json :=
  .object [("name", .string decl.name), ("members", .array (decl.members.map Member.toJson)),
    ("span", decl.span.toJson)]

/-- Reads a type declaration. -/
def ofJson? (json : Json) : Option TypeDecl := do
  let [name, members, span] ← json.record? ["name", "members", "span"] | none
  return ⟨← (← name).asString?, ← (← members).asListOf? Member.ofJson?, ← Span.ofJson? (← span)⟩

end TypeDecl

namespace Item

/-- The JSON form of an item. -/
def toJson : Item → Json
  | .typeDecl decl => .object [("Type", decl.toJson)]
  | .function decl => .object [("Function", decl.toJson)]
  | .statements block => .object [("Statements", block.toJson)]

/-- Reads an item. -/
def ofJson? (json : Json) : Option Item :=
  match json.variant? with
  | some ("Type", payload) => (TypeDecl.ofJson? payload).map .typeDecl
  | some ("Function", payload) => (FunctionDecl.ofJson? payload).map .function
  | some ("Statements", payload) => (Block.ofJson? payload).map .statements
  | _ => none

end Item

namespace SyntaxTree

/-- The JSON form of a file. -/
def toJson (tree : SyntaxTree) : Json :=
  .object [("path", .string tree.path),
    ("source", match tree.source with | some text => .string text | none => .null),
    ("items", .array (tree.items.map Item.toJson))]

/-- Reads a file. -/
def ofJson? (json : Json) : Option SyntaxTree := do
  let [path, source, items] ← json.record? ["path", "source", "items"] | none
  return ⟨← (← path).asString?, ← Json.optional? Json.asString? source,
    ← (← items).asListOf? Item.ofJson?⟩

end SyntaxTree

end MacroExpansion
