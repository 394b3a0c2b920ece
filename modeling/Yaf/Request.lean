import Yaf.Php.Value

namespace Yaf
open Base

/-- The request object. The three names are public properties, so they may hold anything. -/
structure Request where
  module : Zval
  controller : Zval
  action : Zval
  params : Table Key Zval
  uri : Bytes
  baseUri : Zval
  routed : Bool
  dispatched : Bool
  exception : Option Nat

/-- A request nothing has been routed on. -/
def freshRequest (uri : Bytes) : Request where
  module := .null
  controller := .null
  action := .null
  params := []
  uri := uri
  baseUri := .string []
  routed := false
  dispatched := false
  exception := none

/-- `yaf_request_set_params_multi`: `zend_hash_copy` writes over what is there. -/
def requestSetParamsMulti (request : Request) (values : Table Key Zval) : Request :=
  { request with params := Table.merge request.params values }

/-- The declared module names are compared without regard to case. -/
def applicationIsModuleName (modules : List Bytes) (name : Bytes) : Bool :=
  modules.any (equalsCi · name)

end Yaf
