import SchemaDoc.Reading.NumericKey
import SchemaDoc.Reading.Record

/-!
# Teams of users, and scores

Users are closed records: a member that is none of theirs is an error. Teams and scores are open.
-/
namespace SchemaDoc

structure User where
  name : String
  age : Int
deriving DecidableEq, Repr

structure Team where
  users : List User
deriving DecidableEq, Repr

/-- Scores by number, in increasing order of the numbers. -/
structure Scores where
  byId : List (Int × Int)
deriving DecidableEq, Repr

namespace User

structure Draft where
  name : Option String
  age : Option Int

def record : Record Draft User where
  title := "struct User"
  slots :=
    [.required "name" Draft.name (fun text draft => { draft with name := text }) Reader.string,
      .required "age" Draft.age (fun age draft => { draft with age := age })
        (Reader.integer .unsigned32)]
  others := .refused
  blank := ⟨none, none⟩
  finish := fun draft => do return ⟨← needed "name" draft.name, ← needed "age" draft.age⟩

def read : Reader User := record.read

def toJson (user : User) : Json :=
  .object [("name", .string user.name), ("age", .number (.integer user.age))]

end User

namespace Team

def record : Record (Option (List User)) Team where
  title := "struct Team"
  slots := [.required "users" id (fun users _ => some users) (Reader.list User.read)]
  others := .skipped
  blank := none
  finish := fun draft => do return ⟨← needed "users" draft⟩

def read : Reader Team := record.read

def toJson (team : Team) : Json := .object [("users", .array (team.users.map User.toJson))]

end Team

namespace Scores

/-- Sets the score of a number, keeping the order. -/
def put (scores : List (Int × Int)) (n score : Int) : List (Int × Int) :=
  match scores with
  | [] => [(n, score)]
  | (m, other) :: rest =>
    if n < m then (n, score) :: (m, other) :: rest
    else if n = m then (n, score) :: rest
    else (m, other) :: put rest n score

/-- The scores of a list in which the last one of a number counts. -/
def ofList (written : List (Int × Int)) : Scores :=
  ⟨written.foldl (fun scores pair => put scores pair.1 pair.2) []⟩

def record : Record (Option Scores) Scores where
  title := "struct Scores"
  slots :=
    [.required "by_id" id (fun scores _ => some scores) fun origin source =>
      (Reader.numberedMap .unsigned8 (Reader.integer .signed32) origin source).map ofList]
  others := .skipped
  blank := none
  finish := needed "by_id"

def read : Reader Scores := record.read

def toJson (scores : Scores) : Json :=
  .object [("by_id", .object
    (scores.byId.map fun pair => (toString pair.1, .number (.integer pair.2))))]

end Scores

end SchemaDoc
