import Conform.Acceptance

namespace Conform

/-- What a walk does at a deferred schema: the codes done before give the codes done after. -/
abbrev Force := Deferred → List Value → List Code → Run (List Code)

def ContractFault.entry (path : List Value) (key : SchemaKey) (reason : Reason) : ContractFault :=
  .invalidSchema { key := .single key.toValue, keysPath := path, reason }

/-- The target of a renamed option has to be declared later. -/
def Entry.checkRename (path : List Value) (key : SchemaKey) (renameTo? : Option String)
    (later : List Entry) : Run Unit :=
  match renameTo? with
  | none => return ()
  | some target =>
    if later.any fun e => e.key == .atom target then return ()
    else .fail (.fault (.entry path key (.renameTarget key.toValue target)))

def Entry.checkKeys (path : List Value) (key : SchemaKey) (t : OptionType)
    (keys? : Option Schema) : Run Unit :=
  if keys?.isNone || t.acceptsKeys then return ()
  else .fail (.fault (.entry path key (.misplacedKeys t.name)))

section

variable (force : Force)

mutual

def OptionType.walk (path : List Value) : OptionType → List Code → Run (List Code)
  | .keywordListOf s, done => Schema.walk path s done
  | .nonEmptyKeywordListOf s, done => Schema.walk path s done
  | .mapOfKeys s, done => Schema.walk path s done
  | .mapOf key value, done => do
    let done ← OptionType.walk path key done
    OptionType.walk path value done
  | .listOf t, done => OptionType.walk path t done
  | .union ts, done => OptionType.walkAll path ts done
  | .tupleOf ts, done => OptionType.walkAll path ts done
  | _, done => return done

def OptionType.walkAll (path : List Value) : List OptionType → List Code → Run (List Code)
  | [], done => return done
  | t :: rest, done => do
    let done ← OptionType.walk path t done
    OptionType.walkAll path rest done

def OptionSpec.walk (path : List Value) (key : SchemaKey) (later : List Entry) :
    OptionSpec → List Code → Run (List Code)
  | ⟨t, _, _, keys?, _, renameTo?, _, _, _, _⟩, done => do
    Entry.checkRename path key renameTo? later
    Entry.checkKeys path key t keys?
    let inner := path ++ [key.toValue]
    let done ← Schema.walk? inner keys? done
    OptionType.walk inner t done

def Entry.walkAll (path : List Value) : List Entry → List Code → Run (List Code)
  | [], done => return done
  | ⟨key, spec⟩ :: later, done => do
    let done ← OptionSpec.walk path key later spec done
    Entry.walkAll path later done

/-- Checks a schema at a path, given the codes of producers that need no further check. -/
def Schema.walk (path : List Value) : Schema → List Code → Run (List Code)
  | .entries es, done => Entry.walkAll path es done
  | .deferred d, done => force d path done

def Schema.walk? (path : List Value) : Option Schema → List Code → Run (List Code)
  | none, done => return done
  | some s, done => Schema.walk path s done

end

end

def Schema.checkData (host : Host) (fuel : Nat) (path : List Value) (data : Value) : Run Unit := do
  if let some e ← Schema.judge host fuel data then
    .fail (.fault (.invalidSchema (e.under path)))

/-- Produces a deferred schema and checks it. A code is not checked again while a schema of the
same code is being checked, which ends the walk of a schema that contains itself, nor after a
producer without state was done. The limit is that of acceptance; `fuel` bounds how many deferred
schemas are open at a time. -/
def Deferred.check (host : Host) (limit fuel : Nat) (active : List Code) : Force :=
  fun d path done =>
    let code := d.producer.code
    if active.contains code || done.contains code then return done
    else
      match fuel with
      | 0 => .fail .exhausted
      | fuel + 1 => do
        let es ← Run.ofOption ((host.schemaOf d).resolve? host limit)
        Schema.checkData host limit path (Schema.entries es).toValue
        let done ← Entry.walkAll (Deferred.check host limit fuel (code :: active)) path es done
        return if code.isStateless then code :: done else done

def Schema.checkPlacement (host : Host) (fuel : Nat) (s : Schema) : Run Unit := do
  let _ ← s.walk (Deferred.check host fuel fuel []) [] []

end Conform
