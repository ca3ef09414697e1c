import Mathlib

/-!
# What every layer shares

The number of a commit, and the variants of `ZuError` that the storage layer
raises, with the texts they carry. What an operating system error says is not
modelled.
-/

namespace Zu

/-- `Epoch`: commits are numbered. -/
abbrev Epoch := ℕ

inductive ZuError
  | io
  | corrupt (what detail : String)
  | unsupported (what : String) (id : ℕ)
  | invalidArgument (message : String)
  | gql (status detail : String)
  | conflict
  | interrupted
  deriving DecidableEq, Repr

end Zu
