import ArrowCalc.Error
import ArrowCalc.Scopes

/-!
# Evaluation

A `Machine` has a stack of values and the scopes. Evaluating an expression pushes its value.
Operands, statements and arguments are evaluated from left to right.

A call evaluates its callee, checks it, evaluates the arguments where the call stands, and then the
body of the function in a new frame on top of the live ones. So the free names of a function mean
what they mean at its call.

Evaluation need not end. `Machine.eval` takes the number of levels that expressions and calls may be
nested, and fails with `Error.tooDeep` beyond it. A machine outlives a failure: what it left on the
stack stays there.
-/

namespace ArrowCalc

/-- The state of an evaluation; the top of the stack comes first. -/
structure Machine where
  stack : List Value
  scopes : Scopes

namespace Machine

/-- An empty stack and no bindings. -/
def start : Machine := ⟨[], .empty⟩

/-- Works on a machine. What was done to it stays when the work fails. -/
abbrev Work := EStateM Error Machine

/-- Puts a value on the stack. -/
def push (value : Value) : Work Unit := modify fun m => { m with stack := value :: m.stack }

/-- Takes the top value from the stack, on behalf of an operation. -/
def pop (operation : Operation) : Work Value := fun m =>
  match m.stack with
  | [] => .error (.runtime (.stackUnderflow operation)) m
  | value :: stack => .ok value { m with stack }

/-- Gives up because of an error of evaluation. -/
def fail {α : Type} (error : RuntimeError) : Work α := throw (.runtime error)

/-! ### Operators -/

/-- What an operator does to two numbers. -/
def arithmetic : BinaryOp → Float → Float → Float
  | .add, a, b => a + b
  | .sub, a, b => a - b
  | .mul, a, b => a * b
  | .div, a, b => a / b
  | .pow, a, b => Float.pow a b

/-- Applies an operator to two values, which have to be numbers. -/
def applyBinary (op : BinaryOp) (left right : Value) : Except RuntimeError Value :=
  match left.number?, right.number? with
  | some a, some b => .ok (.num (arithmetic op a b))
  | _, _ => .error (.badBinaryOperand left.text op.symbol right.text)

/-- Applies a sign to a value, which has to be a number. -/
def applyUnary (op : UnaryOp) (operand : Value) : Except RuntimeError Value :=
  match op, operand.number? with
  | .plus, some a => .ok (.num a)
  | .minus, some a => .ok (.num (-a))
  | op, none => .error (.badUnaryOperand op.symbol operand.text)

/-- Pushes a value, or gives up if there is none. -/
def pushResult : Except RuntimeError Value → Work Unit
  | .ok value => push value
  | .error error => fail error

/-! ### Calls -/

/-- Works with a frame on top of the scopes, which is removed also when the work fails. -/
def inFrame (frame : Frame) (body : Work Unit) : Work Unit := fun m =>
  match body { m with scopes := m.scopes.push frame } with
  | .ok _ m' => .ok () { m' with scopes := m'.scopes.pop }
  | .error e m' => .error e { m' with scopes := m'.scopes.pop }

/-- Evaluates arguments by `visit` and binds them to their parameters in `frame`. -/
def bindArgs (visit : Expr → Work Unit) : List (String × Expr) → Frame → Work Frame
  | [], frame => pure frame
  | (name, arg) :: rest, frame => do
    visit arg
    let value ← pop .call
    bindArgs visit rest (frame.insert name value)

/-! ### Expressions -/

/-- Evaluates statements by `visit` and keeps the value of the last one. -/
def visitBlock (visit : Expr → Work Unit) : List Expr → Work Unit
  | [] => pure ()
  | [e] => visit e
  | e :: es => do
    visit e
    let _ ← pop .block
    visitBlock visit es

/-- Evaluates an expression and pushes its value; at most `depth` levels may be nested. -/
def visit (depth : Nat) (e : Expr) : Work Unit :=
  match depth with
  | 0 => throw .tooDeep
  | depth + 1 =>
    match e with
    | .malformed message => throw (.malformed message)
    | .block statements => visitBlock (visit depth) statements
    | .int value => push (.num (Float.ofInt value))
    | .binary op left right => do
      visit depth left
      visit depth right
      let b ← pop .binary
      let a ← pop .binary
      pushResult (applyBinary op a b)
    | .unary op operand => do
      visit depth operand
      let a ← pop .unary
      pushResult (applyUnary op a)
    | .paren inner => visit depth inner
    | .declare name value => do
      visit depth value
      let a ← pop .declare
      modify fun m => { m with scopes := m.scopes.declare name a }
      push a
    | .var name => do
      match (← get).scopes.resolve? name with
      | some value => push value
      | none => fail (.unknownVariable name)
    | .func params body => push (.func params body)
    | .call callee args => do
      visit depth callee
      match ← pop .call with
      | .num a => fail (.notAFunction (Value.num a).text)
      | .func params body =>
        if params.length = args.length then
          let frame ← bindArgs (visit depth) (params.zip args) .empty
          inFrame frame (visit depth body)
        else fail (.wrongArity params.length args.length)

/-- Evaluates an expression and takes its value from the stack. -/
def eval (depth : Nat) (e : Expr) : Work Value := do
  visit depth e
  pop .result

end Machine

/-- The text of the value of a tree, evaluated on a fresh machine. -/
def Expr.evaluate (depth : Nat) (e : Expr) : Except Error String :=
  match Machine.eval depth e Machine.start with
  | .ok value _ => .ok value.text
  | .error error _ => .error error

end ArrowCalc
