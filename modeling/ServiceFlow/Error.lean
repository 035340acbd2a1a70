import ServiceFlow.Forest.Error

/-!
# Errors of a compilation

Why a function, a document or the settings were refused, and how that is worded.
-/

namespace ServiceFlow

inductive Target where
  | resolver
  | workflow
deriving DecidableEq, Repr

def Target.name : Target → String
  | .resolver => "resolver"
  | .workflow => "workflow"

inductive PositionFault where
  | nestedInCall
  | insideStatement (kind : Kind)
  | notTopLevel
  | nestedInArguments
  | notWholeStatement
  | intrinsicNotWholeStatement
deriving DecidableEq, Repr

def PositionFault.message : PositionFault → String
  | .nestedInCall => "service calls cannot be nested in the arguments of another service call"
  | .insideStatement kind =>
    "a service call inside a " ++ kind.name ++ " cannot be split into pipeline stages"
  | .notTopLevel =>
    "a service call must be the whole initializer, expression, or return value of a top-level " ++
      "statement"
  | .nestedInArguments => "service calls cannot be nested in arguments"
  | .notWholeStatement =>
    "a service call must be the whole initializer, expression or return value of a statement"
  | .intrinsicNotWholeStatement =>
    "'$SFN' intrinsics must be the whole initializer, expression or return value of a statement"

inductive ConcurrencyFault where
  | notObject
  | notSingle
  | otherOption
  | notNumber
  | notPositive
deriving DecidableEq, Repr

def ConcurrencyFault.message : ConcurrencyFault → String
  | .notObject => "options must be an object literal"
  | .notSingle => "options must contain exactly one property, maxConcurrency"
  | .otherOption => "the only supported option is maxConcurrency"
  | .notNumber => "maxConcurrency must be a number literal"
  | .notPositive => "maxConcurrency must be a positive integer"

inductive BranchFault where
  | noBranches
  | notInline (kind : Kind)
deriving DecidableEq, Repr

def BranchFault.message : BranchFault → String
  | .noBranches => "parallel needs at least one branch"
  | .notInline kind => "branches must be inline functions, found " ++ kind.name

inductive ServiceFault where
  | notKeyValueOperation (method : String)
  | keyValueNotCallable
  | standardMachine (identifier : String)
  | notOperation (method backend : String)
  | notIntrinsic (method : String)
  | objectExpected (operation : String)
  | spreadArgument (operation : String)
  | staticKeys (operation : String)
  | payload
  | oneArgument (intrinsic : String)
  | seconds (intrinsic : String)
  | timestamp (intrinsic : String)
  | mapArguments (intrinsic : String)
  | inlineIteration (intrinsic : String)
  | itemsVariable (intrinsic : String)
  | iterationParameters (intrinsic : String)
deriving DecidableEq, Repr

def ServiceFault.message : ServiceFault → String
  | .notKeyValueOperation method => "'" ++ method ++ "' is not a key-value store operation"
  | .keyValueNotCallable => "a key-value store is not callable; call one of its operations"
  | .standardMachine identifier =>
    "'" ++ identifier ++ "' is a standard state machine and cannot be started synchronously"
  | .notOperation method backend => "'" ++ method ++ "' is not an operation of a " ++ backend
  | .notIntrinsic method => "'$SFN." ++ method ++ "' is not a workflow intrinsic"
  | .objectExpected operation => operation ++ " expects an object literal argument"
  | .spreadArgument operation => operation ++ " arguments cannot be spread"
  | .staticKeys operation => operation ++ " argument keys must be static"
  | .payload => "the payload must be an object or a variable"
  | .oneArgument intrinsic => intrinsic ++ " expects exactly one argument"
  | .seconds intrinsic => intrinsic ++ " expects a whole number of seconds or a variable"
  | .timestamp intrinsic => intrinsic ++ " expects a timestamp string or a variable"
  | .mapArguments intrinsic => intrinsic ++ " expects (items, [options], function)"
  | .inlineIteration intrinsic => "the " ++ intrinsic ++ " iteration must be an inline function"
  | .itemsVariable intrinsic => intrinsic ++ " items must be a variable"
  | .iterationParameters intrinsic =>
    "the " ++ intrinsic ++ " iteration takes at most (item, index, items)"

inductive Unsupported where
  /-- The construct stands for source text that could not be read. -/
  | unparsed (message : String)
  | functionBody
  | continueInTemplate
  | tryInTemplate
  | nestedFunction
  | notStatement
  | loopVariableName
  | functionValue
  | noTemplateForm
  | memberExpected
  | notMethodCall
  | jsonFunction (name : String)
  | notProperty
  | parameterName
  | nestedFunctionInWorkflow
  | outsideFunction
  | outsideLoop (jump : String)
  | leavesFinally (jump : String)
  | finallyOutside
  | forIn
  | noStateForm
  | indexedResult
  | notMemberAccess
  | loopOutside
  | loopVariableDeclaration
  | notIterable
  | thrownValue
  | onlyCallable (name : String)
  | expressionForm
  | intrinsicNotCalled
  | memberOfConstant
  | memberOfExpression
  | subtraction
  | logicalValue
  | comparisonValue
  | operator (op : BinaryOp)
  | objectSpread
  | computedKey
  | notCallable
  | singleArgument
  | collectionArgument
  | conditionNotVariable
  | comparisonOperands
  | orderOfScalars
  | orderOfCollections
deriving DecidableEq, Repr

def Unsupported.message : Unsupported → String
  | .unparsed message => message
  | .functionBody => "function bodies must be blocks"
  | .continueInTemplate => "'continue' has no mapping template equivalent"
  | .tryInTemplate => "try statements are only supported in workflows"
  | .nestedFunction => "nested function declarations are not supported"
  | .notStatement => "expected a statement"
  | .loopVariableName => "loop variable must be a plain name"
  | .functionValue => "functions cannot be used as values in a mapping template"
  | .noTemplateForm => "no mapping template equivalent"
  | .memberExpected => "expected a member access"
  | .notMethodCall => "only method calls can be translated"
  | .jsonFunction name => "JSON." ++ name ++ " is not supported"
  | .notProperty => "expected a property or a spread"
  | .parameterName => "parameters must be plain names"
  | .nestedFunctionInWorkflow => "nested function declarations are not supported in workflows"
  | .outsideFunction => "statement is outside the compiled function"
  | .outsideLoop jump => jump ++ " outside of a loop"
  | .leavesFinally jump => jump ++ " cannot leave a try statement that has a finally block"
  | .finallyOutside => "finally block outside the compiled function"
  | .forIn => "for-in loops are not supported in workflows"
  | .noStateForm => "statement has no state machine translation"
  | .indexedResult => "results can only be indexed by constants"
  | .notMemberAccess => "not a member access"
  | .loopOutside => "loop outside the compiled function"
  | .loopVariableDeclaration => "loop variables must be declarations"
  | .notIterable => "for-of loops iterate over arrays"
  | .thrownValue => "thrown values must be strings or variables"
  | .onlyCallable name => "'" ++ name ++ "' can only be called"
  | .expressionForm => "expression has no state machine translation"
  | .intrinsicNotCalled => "'$SFN' intrinsics must be called"
  | .memberOfConstant => "member of a constant"
  | .memberOfExpression => "properties can only be read from variables"
  | .subtraction => "only constants can be subtracted"
  | .logicalValue => "logical operators are only supported in conditions"
  | .comparisonValue => "comparisons are only supported in conditions"
  | .operator op => "operator '" ++ op.symbol ++ "' has no state machine translation"
  | .objectSpread => "object spread has no state machine translation"
  | .computedKey => "computed keys must be constant"
  | .notCallable => "only service calls, JSON.stringify and JSON.parse can be called"
  | .singleArgument => "expected a single argument"
  | .collectionArgument => "objects and arrays cannot be passed to intrinsic functions"
  | .conditionNotVariable => "conditions must test variables"
  | .comparisonOperands => "comparisons must be between variables and constants"
  | .orderOfScalars => "null and booleans can only be compared for equality"
  | .orderOfCollections => "objects and arrays cannot be compared"

inductive SettingsFault where
  | notPositive (key raw : String)
  | nameTooLong (length : Nat)
deriving DecidableEq, Repr

def SettingsFault.message : SettingsFault → String
  | .notPositive key raw =>
    "invalid " ++ key ++ ": expected a positive integer, got '" ++ raw ++ "'"
  | .nameTooLong length => "WEFT_STATE_NAME_MAX_LEN must be at most 80, got " ++ toString length

inductive CompileError where
  | node (error : NodeError)
  | callPosition (node : NodeId) (fault : PositionFault)
  | contextMismatch (node : NodeId) (construct : String) (expected : Target)
  | concurrency (node : NodeId) (fault : ConcurrencyFault)
  | branch (node : NodeId) (fault : BranchFault)
  | unsupported (node : NodeId) (kind : Kind) (fault : Unsupported)
  | unknownResource (node : NodeId) (name : String)
  | serviceCall (node : NodeId) (fault : ServiceFault)
  | settings (fault : SettingsFault)
deriving DecidableEq, Repr

namespace CompileError

def node? : CompileError → Option NodeId
  | .node error => some error.node
  | .callPosition n _ | .contextMismatch n _ _ | .concurrency n _ | .branch n _
  | .unsupported n _ _ | .unknownResource n _ | .serviceCall n _ => some n
  | .settings _ => none

def message : CompileError → String
  | .node error => error.message
  | .callPosition n fault =>
    "node " ++ nodeLabel n ++ ": service call in unsupported position: " ++ fault.message
  | .contextMismatch n construct expected =>
    "node " ++ nodeLabel n ++ ": '" ++ construct ++ "' can only be used in a " ++ expected.name
  | .concurrency n fault => "node " ++ nodeLabel n ++ ": invalid concurrency: " ++ fault.message
  | .branch n fault => "node " ++ nodeLabel n ++ ": invalid parallel branch: " ++ fault.message
  | .unsupported n kind fault =>
    "node " ++ nodeLabel n ++ ": unsupported " ++ kind.name ++ ": " ++ fault.message
  | .unknownResource n name => "node " ++ nodeLabel n ++ ": unknown resource '" ++ name ++ "'"
  | .serviceCall n fault => "node " ++ nodeLabel n ++ ": invalid service call: " ++ fault.message
  | .settings fault => "configuration error: " ++ fault.message

end CompileError

end ServiceFlow
