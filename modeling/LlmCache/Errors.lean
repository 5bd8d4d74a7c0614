import LlmCache.Lib.FileSystem

/-!
# Exceptions

The `CacheError` hierarchy together with the built-in exceptions that the
modelled code lets escape.
-/

namespace LlmCache.Errors

inductive Raised where
  | cacheNotFound (cacheId : String)
  | cacheExpired (cacheId : String)
  | cacheMismatch (cacheId : String) (chunkIndex : Nat) (workerId : Int)
  | storageFull (message : String)
  | serialization (message : String)
  | valueError (message : String)
  | overflowError (value : Int)
  /-- The `OverflowError` of `int(x)` for an infinite `x`. -/
  | infinityError
  | runtimeError (message : String)
  | recursionError
  | responseError (message : String)
  | keyError (key : String)
  | typeError (message : String)
  | indexError (message : String)
  | attributeError (message : String)
  | unicodeDecodeError
  | unicodeEncodeError
  | invalidUrl (target : List Char)
  | osError (err : Lib.OSError)
deriving DecidableEq, Repr

instance decidableEqExcept {ε α : Type} [DecidableEq ε] [DecidableEq α] : DecidableEq (Except ε α)
  | .error err, .error err' =>
      if h : err = err' then isTrue (congrArg Except.error h)
      else isFalse fun heq => h (Except.error.inj heq)
  | .ok value, .ok value' =>
      if h : value = value' then isTrue (congrArg Except.ok h)
      else isFalse fun heq => h (Except.ok.inj heq)
  | .error _, .ok _ => isFalse fun heq => by cases heq
  | .ok _, .error _ => isFalse fun heq => by cases heq

end LlmCache.Errors
