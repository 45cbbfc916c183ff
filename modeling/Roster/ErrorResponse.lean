import Roster.Expression.Error
import Roster.Json.Basic
import Roster.Patch.Error
import Roster.Schema.Urn

/-!
The answer to a request that fails: a status, perhaps an error type, and a detail.
-/

namespace Roster

structure ErrorResponse where
  status : Nat
  type : Option ErrorType
  detail : String
deriving DecidableEq, Repr, Inhabited

namespace ErrorResponse

/-- A bad request of an error type. -/
def ofType (type : ErrorType) (detail : String) : ErrorResponse := ⟨400, some type, detail⟩

def badRequest (detail : String) : ErrorResponse := ⟨400, none, detail⟩

def notFound (detail : String) : ErrorResponse := ⟨404, none, detail⟩

/-- A value that another resource has already. -/
def conflict (detail : String) : ErrorResponse := ⟨409, some .uniqueness, detail⟩

/-- A feature that is switched off. -/
def notImplemented (detail : String) : ErrorResponse := ⟨501, none, detail⟩

def internal (detail : String) : ErrorResponse := ⟨500, none, detail⟩

def ofQuery (e : ExpressionError) : ErrorResponse := ofType e.queryType e.message

def ofPatch (e : PatchError) : ErrorResponse := ofType e.type e.message

end ErrorResponse

end Roster
