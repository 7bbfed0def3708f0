/-! # Options of a module -/

namespace WasmBackend

/-- What a compilation is told about its target. -/
structure Options where
  /-- The target has native struct and array types. -/
  useGc : Bool := false
  /-- Calls are written with the name of the callee in text output. -/
  debugNames : Bool := false
  /-- Module from which host helpers are imported. -/
  hostModule : String := "NonGC"
  /-- Class with the accessor of string constants. -/
  stringTableClass : String := "jwasm/runtime/StringTable"
  deriving DecidableEq

end WasmBackend
