import MacroExpansion.Symbol.Basic
import MacroExpansion.Keyed

/-! # Symbol tables

A semantic model held in memory: functions are found by their qualified name, and by their simple
name as long as it is unambiguous. The latest declaration under a qualified name counts. -/

namespace MacroExpansion

/-- Declared functions, by path and by simple name. -/
structure SymbolTable where
  /-- The current function of every qualified name. -/
  byPath : Keyed String MethodSymbol := []
  /-- The current functions of every simple name, oldest first. -/
  bySimpleName : Keyed String (List MethodSymbol) := []
  deriving Inhabited

namespace SymbolTable

/-- The functions of a simple name. -/
def named (table : SymbolTable) (name : String) : List MethodSymbol :=
  (table.bySimpleName.lookup name).getD []

/-- The function that a declaration would displace. -/
def displaced? (table : SymbolTable) (symbol : MethodSymbol) : Option MethodSymbol :=
  table.byPath.lookup symbol.qualifiedName

/-- Declares a function in place of the one with the same qualified name, if there is one. -/
def declare (table : SymbolTable) (symbol : MethodSymbol) : SymbolTable where
  byPath := table.byPath.put symbol.qualifiedName symbol
  bySimpleName :=
    let sameName := table.named symbol.name
    -- what is displaced goes by its identity, and only from under the new simple name
    let kept :=
      match table.displaced? symbol with
      | some previous => sameName.filter (·.id != previous.id)
      | none => sameName
    table.bySimpleName.put symbol.name (kept ++ [symbol])

/-- Declares functions of a type in order; their identities are numbered from `firstId`. -/
def declareFunctions (table : SymbolTable) (firstId : Nat) (declaringType : String)
    (decls : List FunctionDecl) : SymbolTable :=
  decls.zipIdx.foldl
    (fun table (decl, offset) => table.declare (.ofDecl ⟨firstId + offset⟩ declaringType decl)) table

/-- The function under a simple name, if there is exactly one. -/
def unambiguous? (table : SymbolTable) (name : String) : Option MethodSymbol :=
  match table.named name with
  | [only] => some only
  | _ => none

/-- The function that a path leads to: the one with that qualified name, else the only one with that
simple name. -/
def get? (table : SymbolTable) (path : String) : Option MethodSymbol :=
  match table.byPath.lookup path with
  | some symbol => some symbol
  | none => table.unambiguous? path

/-- The number of qualified names. -/
def size (table : SymbolTable) : Nat :=
  table.byPath.length

/-- The current functions. -/
def symbols (table : SymbolTable) : List MethodSymbol :=
  table.byPath.map Prod.snd

/-- The model in which calls bind by their path, and declarations by their name. -/
def model (table : SymbolTable) : SemanticModel where
  bindCall call := table.get? call.callee
  declaredSymbol decl := table.unambiguous? decl.name

/-- A qualified name leads to the function last declared under it. -/
theorem get?_declare_self (table : SymbolTable) (symbol : MethodSymbol) :
    (table.declare symbol).get? symbol.qualifiedName = some symbol := by
  simp [get?, declare]

end SymbolTable

end MacroExpansion
