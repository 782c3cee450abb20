import Lox.Value

/-! # The host

Functions of the host are known by a key. A call of one comes out with a value or with the message of
an error. How it comes out may depend on when it is made: calls of the host are numbered. -/

namespace Lox

/-- How calls of the host come out: by the number of the call, the key of the function and the
    arguments. -/
abbrev Host := Nat → String → List Value → Except String Value

namespace Host

/-- The key of the function that tells the time. -/
def clockKey : String := "clock"

/-- The functions that need nothing from outside:

    * `double` is twice a number;
    * `first` is the first argument;
    * `count` is the number of arguments;
    * `type` is the name of the first argument's type;
    * `join` is the printed forms of all arguments in one string;
    * `fail` fails. -/
def standard (key : String) (arguments : List Value) : Except String Value :=
  match key with
  | "double" =>
    match arguments with
    | .number x :: _ => .ok (.number (x * 2))
    | _ => .error "Argument must be a number."
  | "first" => .ok (arguments.headD .nil)
  | "count" => .ok (.number arguments.length.toFloat)
  | "type" => .ok (match arguments with
    | v :: _ => .string v.typeName
    | [] => .nil)
  | "join" => .ok (.string (String.join (arguments.map Value.display)))
  | "fail" => .error ("host failure " ++ toString arguments.length)
  | _ => .error ("no host function " ++ key)

/-- The functions of the host when the clock shows `time n` at the call with the number `n`. -/
def withTime (time : Nat → Float) : Host := fun n key arguments =>
  if key = clockKey then .ok (.number (time n)) else standard key arguments

/-- The functions of the host while the clock shows `seconds`. -/
def withClock (seconds : Float) : Host := withTime fun _ => seconds

end Host
end Lox
