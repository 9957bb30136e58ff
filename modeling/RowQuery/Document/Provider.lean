import RowQuery.Document.Store
import RowQuery.Document.Spec
import RowQuery.Repository
import RowQuery.Serialized

/-!
# Document stores behind a repository
-/

namespace RowQuery.Document

def provider : Provider Query Store where
  compile := Query.ofSpec
  toJson := Query.serialize
  execute s q := .ok (s.rows q)

end RowQuery.Document
