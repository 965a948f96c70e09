/-!
# State values

The literals that state starts with.  Numbers keep the text they were written with, and the fields
of an object keep their order.

## Main definitions

* `StateValue`
* `StateValue.isScalar`
-/

namespace UiLang

/-- A literal of a state declaration. -/
inductive StateValue where
  | number (text : String)
  | string (text : String)
  | boolean (value : Bool)
  | null
  | array (items : List StateValue)
  | object (fields : List (String × StateValue))
  deriving Repr

/-- A value that is neither an array nor an object. -/
def StateValue.isScalar : StateValue → Bool
  | .array _ | .object _ => false
  | _ => true

end UiLang
