import Mathlib.Tactic.Common

/-! # Error codes -/

namespace Yafsml.Vfs

/-- What `GetLastError` reports after a failure. -/
abbrev ErrorCode := { code : UInt32 // code ≠ 0 }

def errorNotEnoughMemory : ErrorCode := ⟨8, by decide⟩
def errorInvalidData : ErrorCode := ⟨13, by decide⟩
def errorCrc : ErrorCode := ⟨23, by decide⟩
def errorReadFault : ErrorCode := ⟨30, by decide⟩
def errorNotSupported : ErrorCode := ⟨50, by decide⟩
def errorInvalidParameter : ErrorCode := ⟨87, by decide⟩
def errorNegativeSeek : ErrorCode := ⟨131, by decide⟩

end Yafsml.Vfs
