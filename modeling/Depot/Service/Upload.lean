import Depot.Core.Effects

/-!
# Upload sessions

The records of chunked uploads and their clean-up (`core/src/service/upload.rs`).
-/

namespace Depot

open Lib

/-- `ADMIN_ENTITY_CAP`. -/
def adminEntityCap : ℕ := 10_000

/-- `put_upload_session` (lines 17–23). -/
def putUploadSession (record : UploadSessionRecord) : Async Unit :=
  kvPut (uploadSessionKey record.uuid) (.session record)

/-- `get_upload_session` (lines 25–31). -/
def getUploadSession (uuid : String) : Async (Option UploadSessionRecord) :=
  typedGet Value.session? (uploadSessionKey uuid)

/-- `get_upload_session_versioned` (lines 33–39). -/
def getUploadSessionVersioned (uuid : String) : Async (Option (UploadSessionRecord × ℕ)) :=
  typedGetVersioned Value.session? (uploadSessionKey uuid)

/-- `put_upload_session_if_version` (lines 41–50). -/
def putUploadSessionIfVersion (record : UploadSessionRecord) (expectedVersion : ℕ) :
    Async Bool :=
  kvPutIfVersion (uploadSessionKey record.uuid) (.session record) (some expectedVersion)

/-- `delete_upload_session` (lines 52–56). -/
def deleteUploadSession (uuid : String) : Async Unit := do
  let _ ← kvDelete (uploadSessionKey uuid)
  pure ()

/-! ## What the functions may change -/

variable {es : List Effect}

theorem effects_getUploadSession (uuid : String) : Effects es (getUploadSession uuid) :=
  effects_typedGet _ _

theorem effects_getUploadSessionVersioned (uuid : String) :
    Effects es (getUploadSessionVersioned uuid) := effects_typedGetVersioned _ _

section

variable (h : Effect.table .uploadSessions ∈ es)
include h

theorem effects_putUploadSession (session : UploadSessionRecord) :
    Effects es (putUploadSession session) := effects_kvPut h _

theorem effects_putUploadSessionIfVersion (session : UploadSessionRecord) (version : ℕ) :
    Effects es (putUploadSessionIfVersion session version) := effects_kvPutIfVersion h _ _

end

end Depot
