import MacroExpansion.Proofs.JsonForms
import MacroExpansion.Tree.Codec

/-! # Forms of nodes

Every node has a form, which is its JSON form with notes (`Expr.json_form` and its like), and the
reader of a type accepts what the forms of its values accept (`Expr.reads` and its like). -/

namespace MacroExpansion

open Form

/-! ## Leaves -/

namespace Span

/-- The fields of a span. -/
def fields : FieldNames where
  names := ["start", "end"]

/-- The form of a span. -/
def form (span : Span) : Form :=
  recordOf fields true [int span.start.toNat, int span.stop.toNat]

/-- The form of a span is written as the span is. -/
theorem json_form (span : Span) : span.form.json = span.toJson := by
  rw [form, json_recordOf rfl]
  rfl

/-- Spans are read as they are accepted. -/
theorem reads (bound : Nat) : Reads bound ofJson? form := by
  refine .mono (.own fields (fun _ => rfl) (fun _ => rfl) fun given span hlength hwithin => ?_)
    bound.le_succ
  rcases given with _ | ⟨start, _ | ⟨stop, _ | _⟩⟩ <;> cases hlength
  simp only [List.forall_mem_cons] at hwithin
  obtain ⟨hstart, hstop, -⟩ := hwithin
  have hsize := reads_asUInt64? bound
  cases span
  simp [hsize.bind_iff hstart, hsize.bind_iff hstop]

end Span

namespace TypeRef

/-- The form of a type. -/
def form : TypeRef → Form
  | .quote => .alternative "Quote" (by decide) absent
  | .quoteOf result => .alternative "Quote" (by decide) result.form
  | .named name => .alternative "Named" (by decide) (.text name)
  | .generic name => .alternative "Generic" (by decide) (.text name)
  | .void => bare "Void"
  | .int => bare "Int"
  | .bool => bare "Bool"
  | .string => bare "String"
  | .object => bare "Object"
  | .statement => bare "Statement"
  | .block => bare "Block"
  | .inferred => bare "Inferred"

/-- The form of a type is written as the type is, whatever quotes are around it. -/
theorem json_form (type : TypeRef) : type.form.json = type.toJson := by
  induction type with
  | quoteOf result ih => rw [form, Form.json, ih, toJson]
  | _ => rfl

/-- Types are there: none of them is left out where it is written. -/
theorem form_ne_absent (type : TypeRef) : type.form ≠ absent := by
  cases type <;> nofun

/-- Types that nest so deeply are read as they are accepted. Only quotes nest. -/
theorem reads_read (bound : Nat) : Reads bound (read bound) form := by
  induction bound with
  | zero => exact .zero (fun _ => rfl) form_ne_absent
  | succ bound ih =>
    refine ⟨fun {json type} hdepth => ⟨fun h => ?_, fun h => ?_⟩, rfl, form_ne_absent⟩
    · unfold read at h
      split at h
      · cases h
      · cases h
        exact ⟨.null, rfl, rfl⟩
      · obtain rfl := Nat.succ.inj ‹bound + 1 = _›
        obtain ⟨result, hresult, rfl⟩ := Option.map_eq_some_iff.mp h
        exact ⟨_, rfl, (ih.payload_iff rfl hdepth).mp hresult⟩
      · -- every other kind is a name or carries one
        split at h <;> cases h <;>
          first
            | exact accepts_bare_iff.mpr ‹_›
            | exact accepts_alternative ‹_› nofun rfl
    · cases type with
      | quote =>
        obtain ⟨_, rfl, rfl⟩ := h
        rfl
      | quoteOf result =>
        obtain ⟨given, rfl, hgiven⟩ := h
        have hresult := (ih.payload_iff rfl hdepth).mpr hgiven
        cases given with
        | null => rw [ih.null] at hresult; cases hresult
        | bool | int | decimal | string | array | object =>
          change Option.map _ _ = _
          rw [hresult]
          rfl
      | named name | generic name =>
        obtain ⟨_, rfl, rfl⟩ := h
        rfl
      | void | int | bool | string | object | statement | block | inferred =>
        rcases h with rfl | rfl <;> rfl

/-- Types are read as they are accepted. -/
theorem reads (bound : Nat) : Reads bound ofJson? form where
  iff {json _} _ := (reads_read json.depth).iff le_rfl
  null := rfl
  present := form_ne_absent

end TypeRef

namespace Literal

/-- The form of a constant. -/
def form : Literal → Form
  | .int value => .alternative "Int" (by decide) (.int value.toInt)
  | .bool value => .alternative "Bool" (by decide) (.bool value)
  | .string value => .alternative "String" (by decide) (.text value)
  | .null => bare "Null"

/-- The form of a literal is written as the literal is. -/
theorem json_form (value : Literal) : value.form.json = value.toJson := by
  cases value <;> rfl

/-- Literals are read as they are accepted, each kind under its own name. -/
theorem reads (bound : Nat) : Reads bound ofJson? form where
  iff {json value} _ := by
    have hint {json given : Json} {name : String} (h : json.variant? = some (name, given))
        {value : Int64} :
        Json.asInt64? given = some value ↔ (Form.int value.toInt).Accepts given :=
      (reads_asInt64? json.depth).payload_iff h (Nat.le_succ _)
    refine ⟨fun h => ?_, fun h => ?_⟩
    · unfold ofJson? at h
      split at h
      · obtain ⟨value, hvalue, rfl⟩ := Option.map_eq_some_iff.mp h
        exact accepts_alternative ‹_› nofun ((hint ‹_›).mp hvalue)
      · cases h
        exact accepts_alternative ‹_› nofun rfl
      · cases h
        exact accepts_alternative ‹_› nofun rfl
      · cases h
        exact accepts_bare_iff.mpr ‹_›
      · cases h
    · cases value with
      | int value =>
        obtain ⟨given, rfl, hgiven⟩ := h
        have hvariant : (Json.object [("Int", given)]).variant? = some ("Int", given) := rfl
        change Option.map _ _ = _
        rw [(hint hvariant).mpr hgiven]
        rfl
      | bool value | string value =>
        obtain ⟨_, rfl, rfl⟩ := h
        rfl
      | null => rcases h with rfl | rfl <;> rfl
  null := rfl
  present value := by cases value <;> nofun

end Literal

namespace UnaryOp

/-- The form of an operator. -/
def form (op : UnaryOp) : Form :=
  Form.named op.toJson

/-- The form of a unary operator is written as the operator is. -/
theorem json_form (op : UnaryOp) : op.form.json = op.toJson := by
  cases op <;> rfl

/-- Unary operators are read as they are accepted, from a bare name or from an object. -/
theorem reads (bound : Nat) : Reads bound ofJson? form where
  iff {json op} _ := by
    refine ⟨fun h => ?_, fun h => ?_⟩
    · unfold ofJson? at h
      split at h <;> cases h <;> exact accepts_bare_iff.mpr ‹_›
    · cases op <;> rcases h with rfl | rfl <;> rfl
  null := rfl
  present op := by cases op <;> nofun

end UnaryOp

namespace BinaryOp

/-- The form of an operator. -/
def form (op : BinaryOp) : Form :=
  Form.named op.toJson

/-- The form of a binary operator is written as the operator is. -/
theorem json_form (op : BinaryOp) : op.form.json = op.toJson := by
  cases op <;> rfl

/-- Binary operators are read as they are accepted, from a bare name or from an object. -/
theorem reads (bound : Nat) : Reads bound ofJson? form where
  iff {json op} _ := by
    refine ⟨fun h => ?_, fun h => ?_⟩
    · unfold ofJson? at h
      split at h <;> cases h <;> exact accepts_bare_iff.mpr ‹_›
    · cases op <;> rcases h with rfl | rfl <;> rfl
  null := rfl
  present op := by cases op <;> nofun

end BinaryOp

/-! ## The mutual family -/

namespace Call

/-- The fields of a call. -/
def fields : FieldNames where
  names := ["callee", "type_args", "args", "span"]

end Call

namespace Lambda

/-- The fields of a lambda. -/
def fields : FieldNames where
  names := ["params", "body", "span"]

end Lambda

namespace Param

/-- The fields of a parameter. -/
def fields : FieldNames where
  names := ["name", "ty", "default"]

end Param

namespace Block

/-- The fields of a block. -/
def fields : FieldNames where
  names := ["statements", "span"]

end Block

namespace Expr

/-- The fields of a constant. -/
def literalFields : FieldNames where
  names := ["value", "span"]

/-- The fields of a name. -/
def nameFields : FieldNames where
  names := ["name", "span"]

/-- The fields of an operator with one operand. -/
def unaryFields : FieldNames where
  names := ["op", "operand", "span"]

/-- The fields of an operator with two operands. -/
def binaryFields : FieldNames where
  names := ["op", "lhs", "rhs", "span"]

/-- The fields of an assignment. -/
def assignFields : FieldNames where
  names := ["target", "value", "span"]

/-- The name of the alternative. -/
def tag : Expr → String
  | .literal .. => "Literal"
  | .name .. => "Name"
  | .call _ => "Call"
  | .unary .. => "Unary"
  | .binary .. => "Binary"
  | .assign .. => "Assign"
  | .lambda _ => "Lambda"

end Expr

namespace Stmt

/-- The field of the empty statement. -/
def emptyFields : FieldNames where
  names := ["span"]

/-- The fields of an expression as a statement. -/
def exprFields : FieldNames where
  names := ["expr", "span"]

/-- The fields of a local variable. -/
def localFields : FieldNames where
  names := ["ty", "name", "init", "span"]

/-- The fields of a conditional. -/
def branchFields : FieldNames where
  names := ["condition", "then_branch", "else_branch", "span"]

/-- The fields of a loop. -/
def loopFields : FieldNames where
  names := ["condition", "body", "span"]

/-- The fields of a return. -/
def retFields : FieldNames where
  names := ["value", "span"]

/-- The name of the alternative. -/
def tag : Stmt → String
  | .empty _ => "Empty"
  | .expr .. => "Expr"
  | .localVar .. => "Local"
  | .block _ => "Block"
  | .branch .. => "If"
  | .loop .. => "While"
  | .ret .. => "Return"

end Stmt

/-- The name of the alternative. -/
def LambdaBody.tag : LambdaBody → String
  | .expr _ => "Expr"
  | .block _ => "Block"

mutual

/-- The form of an expression. -/
def Expr.form : Expr → Form
  | .literal value span => .alternative "Literal" (by decide)
      (recordOf Expr.literalFields false [value.form, span.form])
  | .name name span => .alternative "Name" (by decide)
      (recordOf Expr.nameFields false [text name, span.form])
  | .call call => .alternative "Call" (by decide) call.form
  | .unary op operand span => .alternative "Unary" (by decide)
      (recordOf Expr.unaryFields false [op.form, operand.form, span.form])
  | .binary op lhs rhs span => .alternative "Binary" (by decide)
      (recordOf Expr.binaryFields false [op.form, lhs.form, rhs.form, span.form])
  | .assign target value span => .alternative "Assign" (by decide)
      (recordOf Expr.assignFields false [target.form, value.form, span.form])
  | .lambda lambda => .alternative "Lambda" (by decide) lambda.form

/-- The form of a call. -/
def Call.form : Call → Form
  | ⟨callee, typeArgs, args, span⟩ => recordOf Call.fields true
      [text callee, listOf TypeRef.form typeArgs, ofForms (exprForms args), span.form]

/-- The form of a lambda. -/
def Lambda.form : Lambda → Form
  | ⟨params, body, span⟩ => recordOf Lambda.fields true
      [ofForms (paramForms params), body.form, span.form]

/-- The form of a lambda body. -/
def LambdaBody.form : LambdaBody → Form
  | .expr expr => .alternative "Expr" (by decide) expr.form
  | .block block => .alternative "Block" (by decide) block.form

/-- The form of a parameter. -/
def Param.form : Param → Form
  | ⟨name, type, default⟩ => recordOf Param.fields true [text name, type.form, optExprForm default]

/-- The form of a statement. -/
def Stmt.form : Stmt → Form
  | .empty span => .alternative "Empty" (by decide) (recordOf Stmt.emptyFields false [span.form])
  | .expr expr span => .alternative "Expr" (by decide)
      (recordOf Stmt.exprFields false [expr.form, span.form])
  | .localVar type name init span => .alternative "Local" (by decide)
      (recordOf Stmt.localFields false [type.form, text name, optExprForm init, span.form])
  | .block block => .alternative "Block" (by decide) block.form
  | .branch condition thenBranch elseBranch span => .alternative "If" (by decide)
      (recordOf Stmt.branchFields false
        [condition.form, thenBranch.form, optStmtForm elseBranch, span.form])
  | .loop condition body span => .alternative "While" (by decide)
      (recordOf Stmt.loopFields false [condition.form, body.form, span.form])
  | .ret value span => .alternative "Return" (by decide)
      (recordOf Stmt.retFields false [optExprForm value, span.form])

/-- The form of a block. -/
def Block.form : Block → Form
  | ⟨statements, span⟩ => recordOf Block.fields true [ofForms (stmtForms statements), span.form]

/-- The forms of expressions in sequence. -/
def exprForms : List Expr → List Form
  | [] => []
  | expr :: rest => expr.form :: exprForms rest

/-- The forms of parameters in sequence. -/
def paramForms : List Param → List Form
  | [] => []
  | param :: rest => param.form :: paramForms rest

/-- The forms of statements in sequence. -/
def stmtForms : List Stmt → List Form
  | [] => []
  | stmt :: rest => stmt.form :: stmtForms rest

/-- The form of an optional expression. -/
def optExprForm : Option Expr → Form
  | none => absent
  | some expr => expr.form

/-- The form of an optional statement. -/
def optStmtForm : Option Stmt → Form
  | none => absent
  | some stmt => stmt.form

end

/-- The forms of listed expressions are listed one by one. -/
theorem exprForms_eq_map (exprs : List Expr) : exprForms exprs = exprs.map Expr.form := by
  induction exprs with
  | nil => rfl
  | cons expr rest ih => rw [exprForms, ih, List.map_cons]

/-- The forms of listed parameters are listed one by one. -/
theorem paramForms_eq_map (params : List Param) : paramForms params = params.map Param.form := by
  induction params with
  | nil => rfl
  | cons param rest ih => rw [paramForms, ih, List.map_cons]

/-- The forms of listed statements are listed one by one. -/
theorem stmtForms_eq_map (stmts : List Stmt) : stmtForms stmts = stmts.map Stmt.form := by
  induction stmts with
  | nil => rfl
  | cons stmt rest ih => rw [stmtForms, ih, List.map_cons]

/-- The form of an expression that may be missing is that of an optional part. -/
theorem optExprForm_eq (expr : Option Expr) : optExprForm expr = Form.optional Expr.form expr := by
  cases expr <;> rfl

/-- The form of a statement that may be missing is that of an optional part. -/
theorem optStmtForm_eq (stmt : Option Stmt) : optStmtForm stmt = Form.optional Stmt.form stmt := by
  cases stmt <;> rfl

/-! ### Forms are written as JSON -/

mutual

/-- The form of an expression is written as the expression is. -/
theorem Expr.json_form : (expr : Expr) → expr.form.json = expr.toJson
  | .literal value span => by
      simp [Expr.form, Expr.toJson, Form.json, json_recordOf, Expr.literalFields, value.json_form,
        span.json_form]
  | .name name span => by
      simp [Expr.form, Expr.toJson, Form.json, json_recordOf, Expr.nameFields, span.json_form]
  | .call call => by simp [Expr.form, Expr.toJson, Form.json, call.json_form]
  | .unary op operand span => by
      simp [Expr.form, Expr.toJson, Form.json, json_recordOf, Expr.unaryFields, op.json_form,
        operand.json_form, span.json_form]
  | .binary op lhs rhs span => by
      simp [Expr.form, Expr.toJson, Form.json, json_recordOf, Expr.binaryFields, op.json_form,
        lhs.json_form, rhs.json_form, span.json_form]
  | .assign target value span => by
      simp [Expr.form, Expr.toJson, Form.json, json_recordOf, Expr.assignFields, target.json_form,
        value.json_form, span.json_form]
  | .lambda lambda => by simp [Expr.form, Expr.toJson, Form.json, lambda.json_form]

/-- The form of a call is written as the call is. -/
theorem Call.json_form : (call : Call) → call.form.json = call.toJson
  | ⟨callee, typeArgs, args, span⟩ => by
      simp [Call.form, Call.toJson, Form.json, json_recordOf, Call.fields, TypeRef.json_form,
        json_exprForms args, span.json_form]

/-- The form of a lambda is written as the lambda is. -/
theorem Lambda.json_form : (lambda : Lambda) → lambda.form.json = lambda.toJson
  | ⟨params, body, span⟩ => by
      simp [Lambda.form, Lambda.toJson, json_recordOf, Lambda.fields, json_paramForms params,
        body.json_form, span.json_form]

/-- The form of the body of a lambda is written as the body is. -/
theorem LambdaBody.json_form : (body : LambdaBody) → body.form.json = body.toJson
  | .expr expr => by simp [LambdaBody.form, LambdaBody.toJson, Form.json, expr.json_form]
  | .block block => by simp [LambdaBody.form, LambdaBody.toJson, Form.json, block.json_form]

/-- The form of a parameter is written as the parameter is. -/
theorem Param.json_form : (param : Param) → param.form.json = param.toJson
  | ⟨name, type, default⟩ => by
      simp [Param.form, Param.toJson, Form.json, json_recordOf, Param.fields, type.json_form,
        json_optExprForm default]

/-- The form of a statement is written as the statement is. -/
theorem Stmt.json_form : (stmt : Stmt) → stmt.form.json = stmt.toJson
  | .empty span => by
      simp [Stmt.form, Stmt.toJson, Form.json, json_recordOf, Stmt.emptyFields, span.json_form]
  | .expr expr span => by
      simp [Stmt.form, Stmt.toJson, Form.json, json_recordOf, Stmt.exprFields, expr.json_form,
        span.json_form]
  | .localVar type name init span => by
      simp [Stmt.form, Stmt.toJson, Form.json, json_recordOf, Stmt.localFields, type.json_form,
        json_optExprForm init, span.json_form]
  | .block block => by simp [Stmt.form, Stmt.toJson, Form.json, block.json_form]
  | .branch condition thenBranch elseBranch span => by
      simp [Stmt.form, Stmt.toJson, Form.json, json_recordOf, Stmt.branchFields, condition.json_form,
        thenBranch.json_form, json_optStmtForm elseBranch, span.json_form]
  | .loop condition body span => by
      simp [Stmt.form, Stmt.toJson, Form.json, json_recordOf, Stmt.loopFields, condition.json_form,
        body.json_form, span.json_form]
  | .ret value span => by
      simp [Stmt.form, Stmt.toJson, Form.json, json_recordOf, Stmt.retFields,
        json_optExprForm value, span.json_form]

/-- The form of a block is written as the block is. -/
theorem Block.json_form : (block : Block) → block.form.json = block.toJson
  | ⟨statements, span⟩ => by
      simp [Block.form, Block.toJson, json_recordOf, Block.fields, json_stmtForms statements,
        span.json_form]

/-- Listed expressions are written one by one. -/
theorem json_exprForms : (exprs : List Expr) → (exprForms exprs).map Form.json = exprsToJson exprs
  | [] => rfl
  | expr :: rest => by rw [exprForms, List.map_cons, expr.json_form, json_exprForms rest, exprsToJson]

/-- Listed parameters are written one by one. -/
theorem json_paramForms : (params : List Param) →
    (paramForms params).map Form.json = paramsToJson params
  | [] => rfl
  | param :: rest => by
      rw [paramForms, List.map_cons, param.json_form, json_paramForms rest, paramsToJson]

/-- Listed statements are written one by one. -/
theorem json_stmtForms : (stmts : List Stmt) → (stmtForms stmts).map Form.json = stmtsToJson stmts
  | [] => rfl
  | stmt :: rest => by rw [stmtForms, List.map_cons, stmt.json_form, json_stmtForms rest, stmtsToJson]

/-- An expression that may be missing is written as the expression or as null. -/
theorem json_optExprForm : (expr : Option Expr) → (optExprForm expr).json = optExprToJson expr
  | none => rfl
  | some expr => by rw [optExprForm, expr.json_form, optExprToJson]

/-- A statement that may be missing is written as the statement or as null. -/
theorem json_optStmtForm : (stmt : Option Stmt) → (optStmtForm stmt).json = optStmtToJson stmt
  | none => rfl
  | some stmt => by rw [optStmtForm, stmt.json_form, optStmtToJson]

end

/-! ### Nodes are read as their forms accept -/

/-- Nodes are read from values that nest so deeply as their forms accept. -/
structure NodesRead (bound : Nat) : Prop where
  /-- Expressions are. -/
  expr : Reads bound (Expr.read bound) Expr.form
  /-- Calls are. -/
  call : Reads bound (Call.read bound) Call.form
  /-- Lambdas are. -/
  lambda : Reads bound (Lambda.read bound) Lambda.form
  /-- Lambda bodies are. -/
  lambdaBody : Reads bound (LambdaBody.read bound) LambdaBody.form
  /-- Parameters are. -/
  param : Reads bound (Param.read bound) Param.form
  /-- Statements are. -/
  stmt : Reads bound (Stmt.read bound) Stmt.form
  /-- Blocks are. -/
  block : Reads bound (Block.read bound) Block.form

namespace NodesRead

variable {bound : Nat}

/-- Reading gives the alternative that is named. -/
theorem variant?_of_expr {json : Json} {expr : Expr} (h : Expr.read (bound + 1) json = some expr) :
    ∃ given, json.variant? = some (expr.tag, given) := by
  rw [Expr.read, Option.bind_eq_bind, Option.bind_eq_some_iff] at h
  obtain ⟨⟨name, given⟩, hvariant, h⟩ := h
  refine ⟨given, hvariant.trans ?_⟩
  split at h
  case h_8 => cases h
  -- whatever the parts are, they are put together in the same way
  all_goals
    obtain ⟨rfl, rfl⟩ := Prod.mk.inj ‹(name, given) = _›
    repeat' first | refine of_bind_eq_some h fun _ h => ?_ | split at h
    all_goals cases h
    rfl

/-- Reading the body of a lambda gives the alternative that is named. -/
theorem variant?_of_lambdaBody {json : Json} {body : LambdaBody}
    (h : LambdaBody.read (bound + 1) json = some body) :
    ∃ given, json.variant? = some (body.tag, given) := by
  rw [LambdaBody.read, Option.bind_eq_bind, Option.bind_eq_some_iff] at h
  obtain ⟨⟨name, given⟩, hvariant, h⟩ := h
  refine ⟨given, hvariant.trans ?_⟩
  split at h
  case h_3 => cases h
  all_goals
    obtain ⟨rfl, rfl⟩ := Prod.mk.inj ‹(name, given) = _›
    refine of_bind_eq_some h fun _ h => ?_
    cases h
    rfl

/-- Reading a statement gives the alternative that is named. -/
theorem variant?_of_stmt {json : Json} {stmt : Stmt} (h : Stmt.read (bound + 1) json = some stmt) :
    ∃ given, json.variant? = some (stmt.tag, given) := by
  rw [Stmt.read, Option.bind_eq_bind, Option.bind_eq_some_iff] at h
  obtain ⟨⟨name, given⟩, hvariant, h⟩ := h
  refine ⟨given, hvariant.trans ?_⟩
  split at h
  case h_8 => cases h
  all_goals
    obtain ⟨rfl, rfl⟩ := Prod.mk.inj ‹(name, given) = _›
    repeat' first | refine of_bind_eq_some h fun _ h => ?_ | split at h
    all_goals cases h
    rfl

/-! One more level of nesting, for each kind of nodes. -/

/-- Calls nest one level deeper than their arguments. -/
theorem call_succ (h : NodesRead bound) : Reads (bound + 1) (Call.read (bound + 1)) Call.form := by
  -- the forms of arguments are listed by a recursion of their own
  have hform : Call.form = fun call => recordOf Call.fields true [text call.callee,
      listOf TypeRef.form call.typeArgs, listOf Expr.form call.args, call.span.form] := by
    funext ⟨callee, typeArgs, args, span⟩
    rw [Call.form, exprForms_eq_map, listOf, listOf]
  rw [hform]
  refine .own Call.fields (fun _ => rfl) (fun _ => rfl) fun given call hlength hwithin => ?_
  rcases given with _ | ⟨callee, _ | ⟨typeArgs, _ | ⟨args, _ | ⟨span, _ | _⟩⟩⟩⟩ <;> cases hlength
  simp only [List.forall_mem_cons] at hwithin
  obtain ⟨hcallee, htypeArgs, hargs, hspan, -⟩ := hwithin
  cases call
  simp [(reads_asString? bound).bind_iff hcallee,
    (TypeRef.reads bound).asListOf?.bind_iff htypeArgs,
    h.expr.asListOf?.bind_iff hargs,
    (Span.reads bound).bind_iff hspan]

/-- Lambdas nest one level deeper than their parameters and their bodies. -/
theorem lambda_succ (h : NodesRead bound) :
    Reads (bound + 1) (Lambda.read (bound + 1)) Lambda.form := by
  have hform : Lambda.form = fun lambda => recordOf Lambda.fields true
      [listOf Param.form lambda.params, lambda.body.form, lambda.span.form] := by
    funext ⟨params, body, span⟩
    rw [Lambda.form, paramForms_eq_map, listOf]
  rw [hform]
  refine .own Lambda.fields (fun _ => rfl) (fun _ => rfl) fun given lambda hlength hwithin => ?_
  rcases given with _ | ⟨params, _ | ⟨body, _ | ⟨span, _ | _⟩⟩⟩ <;> cases hlength
  simp only [List.forall_mem_cons] at hwithin
  obtain ⟨hparams, hbody, hspan, -⟩ := hwithin
  cases lambda
  simp [h.param.asListOf?.bind_iff hparams, h.lambdaBody.bind_iff hbody,
    (Span.reads bound).bind_iff hspan]

/-- Parameters nest one level deeper than their defaults. -/
theorem param_succ (h : NodesRead bound) : Reads (bound + 1) (Param.read (bound + 1)) Param.form := by
  have hform : Param.form = fun param => recordOf Param.fields true
      [text param.name, param.type.form, Form.optional Expr.form param.default] := by
    funext ⟨name, type, default⟩
    rw [Param.form, optExprForm_eq]
  rw [hform]
  refine .own Param.fields (fun _ => rfl) (fun _ => rfl) fun given param hlength hwithin => ?_
  rcases given with _ | ⟨name, _ | ⟨type, _ | ⟨default, _ | _⟩⟩⟩ <;> cases hlength
  simp only [List.forall_mem_cons] at hwithin
  obtain ⟨hname, htype, hdefault, -⟩ := hwithin
  cases param
  simp [(reads_asString? bound).bind_iff hname, (TypeRef.reads bound).bind_iff htype,
    h.expr.optional_bind_iff hdefault]

/-- Blocks nest one level deeper than their statements. -/
theorem block_succ (h : NodesRead bound) : Reads (bound + 1) (Block.read (bound + 1)) Block.form := by
  have hform : Block.form = fun block => recordOf Block.fields true
      [listOf Stmt.form block.statements, block.span.form] := by
    funext ⟨statements, span⟩
    rw [Block.form, stmtForms_eq_map, listOf]
  rw [hform]
  refine .own Block.fields (fun _ => rfl) (fun _ => rfl) fun given block hlength hwithin => ?_
  rcases given with _ | ⟨statements, _ | ⟨span, _ | _⟩⟩ <;> cases hlength
  simp only [List.forall_mem_cons] at hwithin
  obtain ⟨hstatements, hspan, -⟩ := hwithin
  cases block
  simp [h.stmt.asListOf?.bind_iff hstatements,
    (Span.reads bound).bind_iff hspan]

/-- Bodies of lambdas nest one level deeper than what they are. -/
theorem lambdaBody_succ (h : NodesRead bound) :
    Reads (bound + 1) (LambdaBody.read (bound + 1)) LambdaBody.form := by
  refine ⟨fun {json body} hdepth => ?_, rfl, fun body => by cases body <;> nofun⟩
  cases body with
  | expr expr =>
    refine read_alternative_iff (h.expr.present expr) variant?_of_lambdaBody fun given hvariant => ?_
    rw [LambdaBody.read, hvariant, ← h.expr.payload_iff hvariant hdepth]
    simp [Option.bind_eq_some_iff]
  | block block =>
    refine read_alternative_iff (h.block.present block) variant?_of_lambdaBody fun given hvariant => ?_
    rw [LambdaBody.read, hvariant, ← h.block.payload_iff hvariant hdepth]
    simp [Option.bind_eq_some_iff]

/-- Expressions nest one level deeper than their parts, each alternative read with its own fields. -/
theorem expr_succ (h : NodesRead bound) : Reads (bound + 1) (Expr.read (bound + 1)) Expr.form := by
  refine ⟨fun {json expr} hdepth => ?_, rfl, fun expr => by cases expr <;> nofun⟩
  have hspans := Span.reads bound
  -- the fields are taken apart, and each of them is read with one level less
  cases expr with
  | literal value span =>
    refine read_alternative_iff nofun variant?_of_expr fun given hvariant => ?_
    rw [Expr.read, hvariant]
    refine fields_bind_iff Expr.literalFields hvariant hdepth rfl fun parts hlength hwithin => ?_
    rcases parts with _ | ⟨value, _ | ⟨span, _ | _⟩⟩ <;> cases hlength
    simp only [List.forall_mem_cons] at hwithin
    obtain ⟨hvalue, hspan, -⟩ := hwithin
    simp [(Literal.reads bound).bind_iff hvalue, hspans.bind_iff hspan]
  | name name span =>
    refine read_alternative_iff nofun variant?_of_expr fun given hvariant => ?_
    rw [Expr.read, hvariant]
    refine fields_bind_iff Expr.nameFields hvariant hdepth rfl fun parts hlength hwithin => ?_
    rcases parts with _ | ⟨name, _ | ⟨span, _ | _⟩⟩ <;> cases hlength
    simp only [List.forall_mem_cons] at hwithin
    obtain ⟨hname, hspan, -⟩ := hwithin
    simp [(reads_asString? bound).bind_iff hname, hspans.bind_iff hspan]
  | call call =>
    refine read_alternative_iff (h.call.present call) variant?_of_expr fun given hvariant => ?_
    rw [Expr.read, hvariant, ← h.call.payload_iff hvariant hdepth]
    simp [Option.bind_eq_some_iff]
  | unary op operand span =>
    refine read_alternative_iff nofun variant?_of_expr fun given hvariant => ?_
    rw [Expr.read, hvariant]
    refine fields_bind_iff Expr.unaryFields hvariant hdepth rfl fun parts hlength hwithin => ?_
    rcases parts with _ | ⟨op, _ | ⟨operand, _ | ⟨span, _ | _⟩⟩⟩ <;> cases hlength
    simp only [List.forall_mem_cons] at hwithin
    obtain ⟨hop, hoperand, hspan, -⟩ := hwithin
    simp [(UnaryOp.reads bound).bind_iff hop, h.expr.bind_iff hoperand, hspans.bind_iff hspan]
  | binary op lhs rhs span =>
    refine read_alternative_iff nofun variant?_of_expr fun given hvariant => ?_
    rw [Expr.read, hvariant]
    refine fields_bind_iff Expr.binaryFields hvariant hdepth rfl fun parts hlength hwithin => ?_
    rcases parts with _ | ⟨op, _ | ⟨lhs, _ | ⟨rhs, _ | ⟨span, _ | _⟩⟩⟩⟩ <;> cases hlength
    simp only [List.forall_mem_cons] at hwithin
    obtain ⟨hop, hlhs, hrhs, hspan, -⟩ := hwithin
    simp [(BinaryOp.reads bound).bind_iff hop, h.expr.bind_iff hlhs, h.expr.bind_iff hrhs,
      hspans.bind_iff hspan]
  | assign target value span =>
    refine read_alternative_iff nofun variant?_of_expr fun given hvariant => ?_
    rw [Expr.read, hvariant]
    refine fields_bind_iff Expr.assignFields hvariant hdepth rfl fun parts hlength hwithin => ?_
    rcases parts with _ | ⟨target, _ | ⟨value, _ | ⟨span, _ | _⟩⟩⟩ <;> cases hlength
    simp only [List.forall_mem_cons] at hwithin
    obtain ⟨htarget, hvalue, hspan, -⟩ := hwithin
    simp [h.expr.bind_iff htarget, h.expr.bind_iff hvalue, hspans.bind_iff hspan]
  | lambda lambda =>
    refine read_alternative_iff (h.lambda.present lambda) variant?_of_expr fun given hvariant => ?_
    rw [Expr.read, hvariant, ← h.lambda.payload_iff hvariant hdepth]
    simp [Option.bind_eq_some_iff]

/-- Statements nest one level deeper than their parts, each alternative read with its own fields. -/
theorem stmt_succ (h : NodesRead bound) : Reads (bound + 1) (Stmt.read (bound + 1)) Stmt.form := by
  refine ⟨fun {json stmt} hdepth => ?_, rfl, fun stmt => by cases stmt <;> nofun⟩
  have hspans := Span.reads bound
  cases stmt with
  | empty span =>
    refine read_alternative_iff nofun variant?_of_stmt fun given hvariant => ?_
    rw [Stmt.read, hvariant]
    refine fields_bind_iff Stmt.emptyFields hvariant hdepth rfl fun parts hlength hwithin => ?_
    rcases parts with _ | ⟨span, _ | _⟩ <;> cases hlength
    simp only [List.forall_mem_cons] at hwithin
    simp [hspans.bind_iff hwithin.1]
  | expr expr span =>
    refine read_alternative_iff nofun variant?_of_stmt fun given hvariant => ?_
    rw [Stmt.read, hvariant]
    refine fields_bind_iff Stmt.exprFields hvariant hdepth rfl fun parts hlength hwithin => ?_
    rcases parts with _ | ⟨expr, _ | ⟨span, _ | _⟩⟩ <;> cases hlength
    simp only [List.forall_mem_cons] at hwithin
    obtain ⟨hexpr, hspan, -⟩ := hwithin
    simp [h.expr.bind_iff hexpr, hspans.bind_iff hspan]
  | localVar type name init span =>
    refine read_alternative_iff nofun variant?_of_stmt fun given hvariant => ?_
    rw [Stmt.read, hvariant, optExprForm_eq]
    refine fields_bind_iff Stmt.localFields hvariant hdepth rfl fun parts hlength hwithin => ?_
    rcases parts with _ | ⟨type, _ | ⟨name, _ | ⟨init, _ | ⟨span, _ | _⟩⟩⟩⟩ <;> cases hlength
    simp only [List.forall_mem_cons] at hwithin
    obtain ⟨htype, hname, hinit, hspan, -⟩ := hwithin
    simp [(TypeRef.reads bound).bind_iff htype, (reads_asString? bound).bind_iff hname,
      h.expr.optional_bind_iff hinit, hspans.bind_iff hspan]
  | block block =>
    refine read_alternative_iff (h.block.present block) variant?_of_stmt fun given hvariant => ?_
    rw [Stmt.read, hvariant, ← h.block.payload_iff hvariant hdepth]
    simp [Option.bind_eq_some_iff]
  | branch condition thenBranch elseBranch span =>
    refine read_alternative_iff nofun variant?_of_stmt fun given hvariant => ?_
    rw [Stmt.read, hvariant, optStmtForm_eq]
    refine fields_bind_iff Stmt.branchFields hvariant hdepth rfl fun parts hlength hwithin => ?_
    rcases parts with _ | ⟨condition, _ | ⟨first, _ | ⟨second, _ | ⟨span, _ | _⟩⟩⟩⟩ <;> cases hlength
    simp only [List.forall_mem_cons] at hwithin
    obtain ⟨hcondition, hfirst, hsecond, hspan, -⟩ := hwithin
    simp [h.expr.bind_iff hcondition, h.stmt.bind_iff hfirst, h.stmt.optional_bind_iff hsecond,
      hspans.bind_iff hspan]
  | loop condition body span =>
    refine read_alternative_iff nofun variant?_of_stmt fun given hvariant => ?_
    rw [Stmt.read, hvariant]
    refine fields_bind_iff Stmt.loopFields hvariant hdepth rfl fun parts hlength hwithin => ?_
    rcases parts with _ | ⟨condition, _ | ⟨body, _ | ⟨span, _ | _⟩⟩⟩ <;> cases hlength
    simp only [List.forall_mem_cons] at hwithin
    obtain ⟨hcondition, hbody, hspan, -⟩ := hwithin
    simp [h.expr.bind_iff hcondition, h.stmt.bind_iff hbody, hspans.bind_iff hspan]
  | ret value span =>
    refine read_alternative_iff nofun variant?_of_stmt fun given hvariant => ?_
    rw [Stmt.read, hvariant, optExprForm_eq]
    refine fields_bind_iff Stmt.retFields hvariant hdepth rfl fun parts hlength hwithin => ?_
    rcases parts with _ | ⟨value, _ | ⟨span, _ | _⟩⟩ <;> cases hlength
    simp only [List.forall_mem_cons] at hwithin
    obtain ⟨hvalue, hspan, -⟩ := hwithin
    simp [h.expr.optional_bind_iff hvalue, hspans.bind_iff hspan]

end NodesRead

/-- However deeply values nest. -/
theorem nodesRead (bound : Nat) : NodesRead bound := by
  induction bound with
  | zero =>
    refine ⟨.zero (fun _ => rfl) ?_, .zero (fun _ => rfl) ?_, .zero (fun _ => rfl) ?_,
      .zero (fun _ => rfl) ?_, .zero (fun _ => rfl) ?_, .zero (fun _ => rfl) ?_,
      .zero (fun _ => rfl) ?_⟩
    all_goals intro value; cases value <;> nofun
  | succ bound ih =>
    exact ⟨ih.expr_succ, ih.call_succ, ih.lambda_succ, ih.lambdaBody_succ, ih.param_succ,
      ih.stmt_succ, ih.block_succ⟩

end MacroExpansion
