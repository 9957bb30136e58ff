import RowQuery.Repository
import RowQuery.Serialized
import RowQuery.Sql.Spec

/-!
# Databases behind a repository
-/

namespace RowQuery.Sql

/-- Statements, and what a database answers to them. -/
def provider {Source : Type} (execute : Source → Select → Except QueryError (List Json)) :
    Provider Select Source where
  compile := Select.ofSpec
  toJson := Select.serialize
  execute := execute

end RowQuery.Sql
