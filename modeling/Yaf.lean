import Yaf.Base.HeapFocus
import Yaf.Route.RoundTrip
import Yaf.Dispatcher.Gate
import Yaf.Dispatcher.LoopBound
import Yaf.Dispatcher.NamesSettled
import Yaf.Dispatcher.Visits
import Yaf.Dispatcher.OneHandler
import Yaf.Dispatcher.LastMatch
import Yaf.BaseUri
import Yaf.Response
import Yaf.Shared.Readonly
import Yaf.Config.IniGet
import Yaf.Config.IniInstance
import Yaf.Config.Simple
import Yaf.Route.MapParams
import Yaf.Route.RewriteAssemble
import Yaf.Route.Configured
import Yaf.Dispatcher.Arguments
import Yaf.Dispatcher.OneModule
import Yaf.Dispatcher.Rendered
import Yaf.Loader.LocalNames
import Yaf.Route.Assemble
import Yaf.Base.Buffer
import Yaf.Config.IniEntry
import Yaf.Config.IniFollow
import Yaf.Config.HeaderPieces
import Yaf.Config.IniMapped
import Yaf.Route.MapSplit
import Yaf.Route.Scalars
import Yaf.Route.Wildcard
import Yaf.Dispatcher.Defaults
import Yaf.Route.QuerySafe
import Yaf.Request.AcceptLanguage
import Yaf.Request.Http
import Yaf.Request.Simple
import Yaf.View.Assigned
import Yaf.Loader.OneFile
import Yaf.Route.ParseParameters
import Yaf.Response.Headers
import Yaf.Loader.LibraryPath
import Yaf.Dispatcher.ForwardCall
import Yaf.Config.IniMerge
import Yaf.Session.Foreach
import Yaf.Registry
import Yaf.View.Display
import Yaf.Response.Outcome
import Yaf.Loader.Import
import Yaf.Application.Modules
import Yaf.Application.Requests
import Yaf.Dispatcher.Arrival
